/-
What patterns recognize, and where a text has no occurrence of them.

A pattern recognizes a language if the texts of the language are what it takes off the front of a
text. Words do, and a run of characters of a class does in front of what begins with no character
of that class, since a run is never cut short. The first occurrence of a pattern comes behind a
stretch of text in which none begins.

* `Text.caseless`, `Text.many`, `Text.atLeastOne`, `Text.spelled`: the languages that patterns are
  made of.
* `Text.Pattern.Recognizes`: a pattern and its language; `Text.recognizes_words`: words with blanks
  between them.
* `Text.Pattern.Avoids`: no occurrence begins in a stretch of text.
* `Text.firstMatch?_append`, `Text.splitAround_append`: the first occurrence.
-/
import Mathlib.Computability.Language
import Mathlib.Data.List.TakeWhile
import NodeQuery.Text.Pattern

namespace NodeQuery.Text

/-! ### Languages -/

/-- The texts that are the word `w` up to the case of their letters. -/
def caseless (w : List Char) : Language Char :=
  {m | m.map foldCase = w}

/-- The texts of characters of a class. -/
def many (p : Char → Bool) : Language Char :=
  {m | ∀ c ∈ m, p c = true}

/-- The texts of one character or more of a class. -/
def atLeastOne (p : Char → Bool) : Language Char :=
  {m | m ≠ [] ∧ m ∈ many p}

/-- The texts of words, in any case of their letters, with blanks between them. -/
def spelled : List (List Char) → Language Char
  | [] => 1
  | [w] => caseless w
  | w :: ws => caseless w * (atLeastOne isBlank * spelled ws)

theorem mem_caseless {w m : List Char} : m ∈ caseless w ↔ m.map foldCase = w :=
  Iff.rfl

theorem mem_atLeastOne {p : Char → Bool} {m : List Char} :
    m ∈ atLeastOne p ↔ m ≠ [] ∧ ∀ c ∈ m, p c = true :=
  Iff.rfl

/-- No text of the language is empty or begins with a character of the class. -/
def BeginsOutside (p : Char → Bool) (L : Language Char) : Prop :=
  ∀ m ∈ L, ∃ c cs, m = c :: cs ∧ p c = false

namespace BeginsOutside

variable {p : Char → Bool} {L M : Language Char}

theorem mul (h : BeginsOutside p L) : BeginsOutside p (L * M) := by
  intro m hm
  obtain ⟨a, ha, b, -, rfl⟩ := Language.mem_mul.mp hm
  obtain ⟨c, cs, rfl, hc⟩ := h a ha
  exact ⟨c, cs ++ b, rfl, hc⟩

theorem many_mul {q : Char → Bool} (hq : ∀ c, q c = true → p c = false) (h : BeginsOutside p L) :
    BeginsOutside p (many q * L) := by
  intro m hm
  obtain ⟨a, ha, b, hb, rfl⟩ := Language.mem_mul.mp hm
  cases a with
  | nil => exact h b hb
  | cons c cs => exact ⟨c, cs ++ b, rfl, hq c (ha c (List.mem_cons_self ..))⟩

theorem atLeastOne {q : Char → Bool} (hq : ∀ c, q c = true → p c = false) :
    BeginsOutside p (atLeastOne q) := by
  intro m hm
  obtain ⟨hne, hall⟩ := mem_atLeastOne.mp hm
  obtain ⟨c, cs, rfl⟩ := List.exists_cons_of_ne_nil hne
  exact ⟨c, cs, rfl, hq c (hall c (List.mem_cons_self ..))⟩

/-- What is left of a text behind a run of characters of the class. -/
theorem dropWhile_append (h : BeginsOutside p L) {m : List Char} (hm : m ∈ L) {g : List Char}
    (hg : g ∈ many p) (rest : List Char) :
    (g ++ (m ++ rest)).dropWhile p = m ++ rest := by
  obtain ⟨c, cs, rfl, hc⟩ := h m hm
  rw [List.dropWhile_append_of_pos hg, List.cons_append,
    List.dropWhile_cons_of_neg (by simp [hc])]

theorem run_append (h : BeginsOutside p L) {m : List Char} (hm : m ∈ L) {g : List Char}
    (hg : g ∈ Text.atLeastOne p) (rest : List Char) :
    run p (g ++ (m ++ rest)) = some (m ++ rest) := by
  obtain ⟨hne, hall⟩ := mem_atLeastOne.mp hg
  obtain ⟨c, cs, rfl⟩ := List.exists_cons_of_ne_nil hne
  rw [List.forall_mem_cons] at hall
  rw [List.cons_append, run, if_pos hall.1, h.dropWhile_append hm hall.2]

end BeginsOutside

theorem exists_of_run {p : Char → Bool} {cs rest : List Char} (h : run p cs = some rest) :
    ∃ g ∈ atLeastOne p, g ++ rest = cs := by
  cases cs with
  | nil => cases h
  | cons c cs =>
    rw [run] at h
    split_ifs at h with hc
    refine ⟨c :: cs.takeWhile p, ⟨List.cons_ne_nil _ _, ?_⟩, ?_⟩
    · intro d hd
      rcases List.mem_cons.mp hd with rfl | hd
      · exact hc
      · exact List.mem_takeWhile_imp hd
    · rw [← Option.some.inj h, List.cons_append, List.takeWhile_append_dropWhile]

/-- Folding changes letters only, and gives small letters, which are behind the capital ones. -/
theorem foldCase_cases (c : Char) :
    foldCase c = c ∨ isBlank c = false ∧ 97 ≤ (foldCase c).toNat := by
  rw [foldCase]
  -- the long s, the Kelvin sign, and the letters of ASCII
  split_ifs with hs hk
  · rw [hs]
    decide
  · rw [hk]
    decide
  · by_cases hupper : c.val ≥ 'A'.val ∧ c.val ≤ 'Z'.val
    · right
      have h₁ : 65 ≤ c.toNat := hupper.1
      have h₂ : c.toNat ≤ 90 := hupper.2
      have hlower : (lower c).toNat = (c.toNat + 32) % 2 ^ 32 :=
        congrArg Char.toNat (dif_pos hupper)
      constructor
      · simp [isBlank, inRanges, blankRanges, CodeRange.holds, CodeRange.single]
        omega
      · omega
    · exact .inl (dif_neg hupper)

theorem foldCase_of_isBlank {c : Char} (h : isBlank c = true) : foldCase c = c := by
  rcases foldCase_cases c with hc | ⟨hc, -⟩
  · exact hc
  · rw [h] at hc
    cases hc

theorem beginsOutside_caseless {w : Char} {ws : List Char} (h : isBlank w = false) :
    BeginsOutside isBlank (caseless (w :: ws)) := by
  intro m hm
  rw [mem_caseless, List.map_eq_cons_iff] at hm
  obtain ⟨c, cs, rfl, hc, -⟩ := hm
  refine ⟨c, cs, rfl, ?_⟩
  rw [← Bool.not_eq_true]
  intro hblank
  rw [← hc, foldCase_of_isBlank hblank, hblank] at h
  cases h

theorem beginsOutside_spelled {w : Char} {w' : List Char} {ws : List (List Char)}
    (h : isBlank w = false) : BeginsOutside isBlank (spelled ((w :: w') :: ws)) := by
  cases ws with
  | nil => exact beginsOutside_caseless h
  | cons v vs => exact (beginsOutside_caseless h).mul

/-! ### Recognition -/

/-- The texts of the language are what the pattern takes off the front of a text. -/
def Pattern.Recognizes (p : Pattern) (L : Language Char) : Prop :=
  ∀ cs rest, p cs = some rest ↔ ∃ m ∈ L, m ++ rest = cs

namespace Pattern.Recognizes

variable {p q : Pattern} {L M : Language Char}

theorem eq_some (h : p.Recognizes L) {m : List Char} (hm : m ∈ L) (rest : List Char) :
    p (m ++ rest) = some rest :=
  (h _ _).mpr ⟨m, hm, rfl⟩

theorem eq_none_iff (h : p.Recognizes L) {cs : List Char} : p cs = none ↔ ∀ m ∈ L, ¬ m <+: cs := by
  rw [Option.eq_none_iff_forall_ne_some]
  constructor
  · rintro hnone m hm ⟨rest, rfl⟩
    exact hnone rest (h.eq_some hm rest)
  · intro hfree rest hrest
    obtain ⟨m, hm, rfl⟩ := (h cs rest).mp hrest
    exact hfree m hm (List.prefix_append m rest)

theorem bind (hp : p.Recognizes L) (hq : q.Recognizes M) :
    Pattern.Recognizes (fun cs => (p cs).bind q) (L * M) := by
  intro cs rest
  rw [Option.bind_eq_some_iff]
  constructor
  · rintro ⟨mid, hmid, hrest⟩
    obtain ⟨a, ha, rfl⟩ := (hp cs mid).mp hmid
    obtain ⟨b, hb, rfl⟩ := (hq mid rest).mp hrest
    exact ⟨a ++ b, Language.append_mem_mul ha hb, List.append_assoc a b rest⟩
  · rintro ⟨m, hm, rfl⟩
    obtain ⟨a, ha, b, hb, rfl⟩ := Language.mem_mul.mp hm
    rw [List.append_assoc]
    exact ⟨b ++ rest, hp.eq_some ha _, hq.eq_some hb rest⟩

/-- A run of characters of a class, and behind it what begins with none of them. -/
theorem run_bind {r : Char → Bool} (hq : q.Recognizes M) (hM : BeginsOutside r M) :
    Pattern.Recognizes (fun cs => (run r cs).bind q) (atLeastOne r * M) := by
  intro cs rest
  rw [Option.bind_eq_some_iff]
  constructor
  · rintro ⟨mid, hmid, hrest⟩
    obtain ⟨a, ha, rfl⟩ := exists_of_run hmid
    obtain ⟨b, hb, rfl⟩ := (hq mid rest).mp hrest
    exact ⟨a ++ b, Language.append_mem_mul ha hb, List.append_assoc a b rest⟩
  · rintro ⟨m, hm, rfl⟩
    obtain ⟨a, ha, b, hb, rfl⟩ := Language.mem_mul.mp hm
    rw [List.append_assoc]
    exact ⟨b ++ rest, hM.run_append hb ha rest, hq.eq_some hb rest⟩

/-- Perhaps characters of a class, and behind them what begins with none of them. -/
theorem dropWhile {r : Char → Bool} (hq : q.Recognizes M) (hM : BeginsOutside r M) :
    Pattern.Recognizes (fun cs => q (cs.dropWhile r)) (many r * M) := by
  intro cs rest
  constructor
  · intro hrest
    obtain ⟨b, hb, hdrop⟩ := (hq _ rest).mp hrest
    refine ⟨cs.takeWhile r ++ b,
      Language.append_mem_mul (fun d hd => List.mem_takeWhile_imp hd) hb, ?_⟩
    rw [List.append_assoc, hdrop, List.takeWhile_append_dropWhile]
  · rintro ⟨m, hm, rfl⟩
    obtain ⟨a, ha, b, hb, rfl⟩ := Language.mem_mul.mp hm
    show q ((a ++ b ++ rest).dropWhile r) = some rest
    rw [List.append_assoc, hM.dropWhile_append hb ha]
    exact hq.eq_some hb rest

end Pattern.Recognizes

theorem recognizes_word (w : List Char) : (word w).Recognizes (caseless w) := by
  intro cs rest
  induction w generalizing cs with
  | nil =>
    constructor
    · intro h
      exact ⟨[], rfl, (Option.some.inj h).symm⟩
    · rintro ⟨m, hm, rfl⟩
      rw [mem_caseless, List.map_eq_nil_iff] at hm
      rw [hm]
      rfl
  | cons x w ih =>
    cases cs with
    | nil =>
      constructor
      · intro h
        cases h
      · rintro ⟨m, hm, hnil⟩
        rw [(List.append_eq_nil_iff.mp hnil).1] at hm
        cases hm
    | cons c cs =>
      rw [word]
      constructor
      · intro h
        split_ifs at h with hc
        obtain ⟨m, hm, rfl⟩ := (ih cs).mp h
        exact ⟨c :: m, by rw [mem_caseless, List.map_cons, hc, hm], rfl⟩
      · rintro ⟨m, hm, hcs⟩
        rw [mem_caseless, List.map_eq_cons_iff] at hm
        obtain ⟨d, m, rfl, hd, hm⟩ := hm
        obtain ⟨rfl, rfl⟩ := List.cons.inj hcs
        rw [if_pos hd]
        exact (ih _).mpr ⟨m, hm, rfl⟩

theorem exists_of_oneOf {p : Char → Bool} {cs rest : List Char} (h : oneOf p cs = some rest) :
    ∃ c, p c = true ∧ cs = c :: rest := by
  cases cs with
  | nil => cases h
  | cons c cs =>
    rw [oneOf] at h
    split_ifs at h with hc
    exact ⟨c, hc, by rw [Option.some.inj h]⟩

theorem recognizes_oneOf (c : Char) : (oneOf (· = c)).Recognizes {[c]} := by
  intro cs rest
  cases cs with
  | nil =>
    constructor
    · intro h
      cases h
    · rintro ⟨m, rfl, hcs⟩
      cases hcs
  | cons d cs =>
    rw [oneOf]
    constructor
    · intro h
      split_ifs at h with hd
      rw [of_decide_eq_true hd, Option.some.inj h]
      exact ⟨[c], rfl, rfl⟩
    · rintro ⟨m, rfl, hcs⟩
      obtain ⟨rfl, rfl⟩ := List.cons.inj hcs
      simp

theorem recognizes_words {ws : List (List Char)}
    (h : ∀ w ∈ ws, ∃ c cs, w = c :: cs ∧ isBlank c = false) :
    (words ws).Recognizes (spelled ws) := by
  induction ws with
  | nil =>
    intro cs rest
    constructor
    · intro hcs
      exact ⟨[], rfl, (Option.some.inj hcs).symm⟩
    · rintro ⟨m, rfl, rfl⟩
      rfl
  | cons w ws ih =>
    rw [List.forall_mem_cons] at h
    cases ws with
    | nil => exact recognizes_word w
    | cons v vs =>
      -- the blanks end where the next word begins
      obtain ⟨c, v', rfl, hc⟩ := h.2 v (List.mem_cons_self ..)
      exact (recognizes_word w).bind ((ih h.2).run_bind (beginsOutside_spelled hc))

/-! ### Occurrences -/

theorem firstMatch?_eq_none_iff {p : Pattern} {cs : List Char} :
    firstMatch? p cs = none ↔ ∀ s, s <:+ cs → p s = none := by
  induction cs with
  | nil => simp [firstMatch?]
  | cons c cs ih =>
    rw [firstMatch?]
    constructor
    · intro h s hs
      split at h
      · cases h
      · rename_i hp
        rcases List.suffix_cons_iff.mp hs with rfl | hs
        · exact hp
        · exact ih.mp (Option.map_eq_none_iff.mp h) s hs
    · intro h
      rw [h _ List.suffix_rfl, ih.mpr fun s hs => h s (List.suffix_cons_iff.mpr (.inr hs))]
      rfl

/-- A pattern that fails where no text of a language begins occurs where one of them does. -/
theorem firstMatch?_eq_none_iff_infix {p : Pattern} {L : Language Char}
    (h : ∀ {cs}, p cs = none ↔ ∀ m ∈ L, ¬ m <+: cs) {cs : List Char} :
    firstMatch? p cs = none ↔ ∀ m ∈ L, ¬ m <:+: cs := by
  rw [firstMatch?_eq_none_iff]
  simp only [h, List.infix_iff_prefix_suffix]
  constructor
  · rintro hfree m hm ⟨s, hms, hs⟩
    exact hfree s hs m hm hms
  · intro hfree s hs m hm hms
    exact hfree m hm ⟨s, hms, hs⟩

theorem Pattern.Recognizes.firstMatch?_eq_none_iff {p : Pattern} {L : Language Char}
    (h : p.Recognizes L) {cs : List Char} :
    firstMatch? p cs = none ↔ ∀ m ∈ L, ¬ m <:+: cs :=
  firstMatch?_eq_none_iff_infix h.eq_none_iff

/-- No occurrence of the pattern begins in `a` if `rest` comes behind it. -/
def Pattern.Avoids (p : Pattern) (a rest : List Char) : Prop :=
  ∀ s, s <:+ a → s ≠ [] → p (s ++ rest) = none

namespace Pattern.Avoids

variable {p : Pattern} {L : Language Char} {a b rest : List Char}

theorem nil : p.Avoids [] rest := by
  intro s hs hne
  exact absurd (List.suffix_nil.mp hs) hne

theorem cons {c : Char} (hc : p (c :: (a ++ rest)) = none) (ha : p.Avoids a rest) :
    p.Avoids (c :: a) rest := by
  intro s hs hne
  rcases List.suffix_cons_iff.mp hs with rfl | hs
  · exact hc
  · exact ha s hs hne

theorem of_cons {c : Char} (h : p.Avoids (c :: a) rest) :
    p (c :: (a ++ rest)) = none ∧ p.Avoids a rest :=
  ⟨h _ List.suffix_rfl (List.cons_ne_nil c a),
    fun s hs hne => h s (List.suffix_cons_iff.mpr (.inr hs)) hne⟩

theorem append (ha : p.Avoids a (b ++ rest)) (hb : p.Avoids b rest) : p.Avoids (a ++ b) rest := by
  induction a with
  | nil => exact hb
  | cons c a ih =>
    obtain ⟨hc, ha⟩ := ha.of_cons
    rw [← List.append_assoc] at hc
    exact (ih ha).cons hc

/-- No character of `a` can begin an occurrence. -/
theorem of_forall (h : ∀ c ∈ a, ∀ cs, p (c :: cs) = none) : p.Avoids a rest := by
  intro s hs hne
  obtain ⟨c, cs, rfl⟩ := List.exists_cons_of_ne_nil hne
  exact h c (hs.subset (List.mem_cons_self ..)) _

/-- Nothing that the pattern recognizes occurs in `a` or goes from `a` over into `rest`. -/
theorem of_recognizes (hp : p.Recognizes L) (hin : ∀ m ∈ L, ¬ m <:+: a)
    (hover : ∀ u v, v ≠ [] → v <+: rest → u ≠ [] → u ++ v ∉ L) : p.Avoids a rest := by
  intro s hs hne
  rw [hp.eq_none_iff]
  rintro m hm ⟨t, ht⟩
  rcases List.append_eq_append_iff.mp ht with ⟨v, rfl, -⟩ | ⟨v, rfl, hrest⟩
  · exact hin m hm ((List.prefix_append m v).isInfix.trans hs.isInfix)
  · by_cases hv : v = []
    · rw [hv, List.append_nil] at hm
      exact hin s hm hs.isInfix
    · exact hover s v hv ⟨t, hrest.symm⟩ hne hm

end Pattern.Avoids

section First

variable {p : Pattern} {a m rest : List Char}

theorem firstMatch?_append {cs : List Char} (hfree : p.Avoids a cs) (h : p cs = some rest) :
    firstMatch? p (a ++ cs) = some (a, rest) := by
  induction a with
  | nil =>
    cases cs with
    | nil => rw [List.nil_append, firstMatch?, h, Option.map_some]
    | cons c cs => rw [List.nil_append, firstMatch?, h]
  | cons c a ih =>
    obtain ⟨hc, ha⟩ := hfree.of_cons
    rw [List.cons_append, firstMatch?, hc, ih ha]
    rfl

theorem splitAfter_append (p : Pattern) (m rest : List Char) :
    splitAfter p m.length (m ++ rest) = splitAfter p 0 rest := by
  induction m with
  | nil => rfl
  | cons c m ih => exact ih

theorem splitAround_append (hfree : p.Avoids a (m ++ rest)) (h : p (m ++ rest) = some rest)
    (hne : m ≠ []) : splitAround p (a ++ (m ++ rest)) = a :: splitAround p rest := by
  induction a with
  | nil =>
    obtain ⟨c, m, rfl⟩ := List.exists_cons_of_ne_nil hne
    have hlength : (m ++ rest).length - rest.length = m.length := by simp
    rw [List.cons_append] at h ⊢
    rw [List.nil_append, splitAround, splitAfter, h]
    show [] :: splitAfter p ((m ++ rest).length - rest.length) (m ++ rest) = [] :: _
    rw [hlength, splitAfter_append, splitAround]
  | cons c a ih =>
    obtain ⟨hc, ha⟩ := hfree.of_cons
    rw [List.cons_append, splitAround, splitAfter, hc]
    exact congrArg (consFirst c) (ih ha)

theorem splitAround_of_avoids (h : p.Avoids a []) : splitAround p a = [a] := by
  induction a with
  | nil => rfl
  | cons c a ih =>
    obtain ⟨hc, ha⟩ := h.of_cons
    rw [List.append_nil] at hc
    rw [splitAround, splitAfter, hc]
    exact congrArg (consFirst c) (ih ha)

theorem splitAround_of_firstMatch? (h : firstMatch? p a = none) : splitAround p a = [a] := by
  refine splitAround_of_avoids fun s hs _ => ?_
  rw [List.append_nil]
  exact firstMatch?_eq_none_iff.mp h s hs

theorem consFirst_ne_nil (c : Char) (texts : List (List Char)) : consFirst c texts ≠ [] := by
  cases texts with
  | nil => exact List.cons_ne_nil _ _
  | cons text texts => exact List.cons_ne_nil _ _

theorem splitAround_ne_nil (p : Pattern) (cs : List Char) : splitAround p cs ≠ [] := by
  rw [splitAround]
  fun_induction splitAfter p 0 cs with
  | case1 => exact List.cons_ne_nil _ _
  | case2 skip c cs ih => exact ih
  | case3 => exact List.cons_ne_nil _ _
  | case4 => exact consFirst_ne_nil _ _

end First

end NodeQuery.Text
