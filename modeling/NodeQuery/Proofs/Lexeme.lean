/-
Lexemes in front of a delimiter and by themselves.

A lexeme is read as far as it goes, so what stands behind a text may lengthen the last
lexeme of it. It does not if it begins with a blank, a comma or a closing bracket, which is
how the parts of a query are put together when it is written.

* `Delimited`: the texts that begin so; `Apart`: all texts of which no word and no number in front
  of them takes a character.
* `Lexeme.read_le`: a lexeme does not reach beyond its text.
* `Lexeme.read_append`: what stands apart behind a text does not change its first lexeme, unless
  that is an error.
* `Lexeme.read_word`, `Lexeme.read_digit`, `Lexeme.read_quote`: what words, numbers and
  strings are read as.
* `Lexeme.read_take`: neither is a lexeme changed if the text is cut off behind it.
-/
import Mathlib.Tactic.SplitIfs
import NodeQuery.Proofs.Prelude
import NodeQuery.Token.Lexer

namespace NodeQuery

/-- A text that is empty or begins with a blank, a comma or a closing bracket. -/
def Delimited (rest : List Char) : Prop :=
  ∀ c ∈ rest.head?, c = ' ' ∨ c = ',' ∨ c = ')'

/-- A text with which neither a word nor a number in front of it goes on. -/
def Apart (rest : List Char) : Prop :=
  ∀ c ∈ rest.head?, Lexeme.isWordPart c = false ∧ c ≠ '.' ∧ c ≠ '+' ∧ c ≠ '-'

theorem Delimited.apart {rest : List Char} (h : Delimited rest) : Apart rest := by
  intro c hc
  rcases h c hc with rfl | rfl | rfl <;> decide

namespace Lexeme

/-! ### How far words, numbers and strings reach -/

theorem isWordPart_of_isDigit {c : Char} (h : c.isDigit = true) : isWordPart c = true := by
  rw [isWordPart, Char.isAlphanum, h, Bool.or_true, Bool.true_or]

theorem digitsExtent_append {rest : List Char} (h : Apart rest) (cs : List Char) :
    digitsExtent (cs ++ rest) = digitsExtent cs := by
  refine List.length_takeWhile_append (fun c hc => ?_) cs
  by_contra hdigit
  have hpart := isWordPart_of_isDigit (by simpa using hdigit)
  rw [(h c hc).1] at hpart
  cases hpart

theorem wordExtent_append {rest : List Char} (h : Apart rest) (cs : List Char) :
    wordExtent (cs ++ rest) = wordExtent cs :=
  List.length_takeWhile_append (fun c hc => (h c hc).1) cs

theorem digitsExtent_le (cs : List Char) : digitsExtent cs ≤ cs.length :=
  (List.takeWhile_prefix _).length_le

theorem wordExtent_le (cs : List Char) : wordExtent cs ≤ cs.length :=
  (List.takeWhile_prefix _).length_le

theorem fractionExtent_le (cs : List Char) : fractionExtent cs ≤ cs.length := by
  unfold fractionExtent
  split
  · rename_i cs
    have := digitsExtent_le cs
    split <;> simp_all
  · exact Nat.zero_le _

theorem fractionExtent_append {rest : List Char} (h : Apart rest) (cs : List Char) :
    fractionExtent (cs ++ rest) = fractionExtent cs := by
  cases cs with
  | nil =>
    cases rest with
    | nil => rfl
    | cons c rest => simp [fractionExtent, (h c rfl).2.1]
  | cons c cs =>
    by_cases hc : c = '.'
    · subst hc
      simp only [List.cons_append, fractionExtent, digitsExtent_append h]
    · simp [fractionExtent, hc]

theorem exists_sign {cs : List Char} (h : ¬(cs.head? ≠ some '+' ∧ cs.head? ≠ some '-')) :
    ∃ sign ds, cs = sign :: ds ∧ (sign = '+' ∨ sign = '-') := by
  cases cs with
  | nil => simp at h
  | cons sign ds => exact ⟨sign, ds, rfl, by simp at h; tauto⟩

/-- An exponent with a sign. -/
theorem exponentExtent_signed {mark sign : Char} {cs : List Char} (hs : sign = '+' ∨ sign = '-') :
    exponentExtent (mark :: sign :: cs)
      = if mark = 'e' ∨ mark = 'E' then (if digitsExtent cs = 0 then 0 else digitsExtent cs + 2)
        else 0 := by
  rcases hs with rfl | rfl <;> cases hd : digitsExtent cs <;>
    simp [exponentExtent, hd]

/-- An exponent without a sign. -/
theorem exponentExtent_unsigned {mark : Char} {cs : List Char}
    (hs : cs.head? ≠ some '+' ∧ cs.head? ≠ some '-') :
    exponentExtent (mark :: cs)
      = if mark = 'e' ∨ mark = 'E' then (if digitsExtent cs = 0 then 0 else digitsExtent cs + 1)
        else 0 := by
  cases cs with
  | nil => simp [exponentExtent, digitsExtent]
  | cons c cs =>
    simp only [List.head?_cons, ne_eq, Option.some.injEq] at hs
    cases hd : digitsExtent (c :: cs) <;> simp [exponentExtent, hs, hd]

theorem exponentExtent_le (cs : List Char) : exponentExtent cs ≤ cs.length := by
  cases cs with
  | nil => exact Nat.zero_le _
  | cons mark cs =>
    have key : ∀ signed n, digitsExtent (cs.drop signed) = n + 1 →
        n + signed + 2 ≤ cs.length + 1 := by
      intro signed n hn
      have hle := digitsExtent_le (cs.drop signed)
      rw [List.length_drop] at hle
      omega
    unfold exponentExtent
    simp only
    split_ifs
    · split
      · exact Nat.zero_le _
      · rename_i n hn
        exact key _ n hn
    · exact Nat.zero_le _

theorem exponentExtent_append {rest : List Char} (h : Apart rest) (cs : List Char) :
    exponentExtent (cs ++ rest) = exponentExtent cs := by
  cases cs with
  | nil =>
    cases rest with
    | nil => rfl
    | cons c rest =>
      have hmark : ¬(c = 'e' ∨ c = 'E') := by
        rintro (rfl | rfl) <;> exact absurd (h _ rfl).1 (by decide)
      simp [exponentExtent, hmark]
  | cons mark cs =>
    rw [List.cons_append]
    by_cases hs : cs.head? ≠ some '+' ∧ cs.head? ≠ some '-'
    · -- nothing in `rest` can pass for the sign either
      have hs' : (cs ++ rest).head? ≠ some '+' ∧ (cs ++ rest).head? ≠ some '-' := by
        cases cs with
        | nil => exact ⟨fun hc => (h _ hc).2.2.1 rfl, fun hc => (h _ hc).2.2.2 rfl⟩
        | cons c cs => exact hs
      rw [exponentExtent_unsigned hs, exponentExtent_unsigned hs', digitsExtent_append h]
    · obtain ⟨sign, ds, rfl, hsign⟩ := exists_sign hs
      rw [List.cons_append, exponentExtent_signed hsign, exponentExtent_signed hsign,
        digitsExtent_append h]

theorem numeralExtent_le (cs : List Char) : numeralExtent cs ≤ cs.length := by
  have h1 := digitsExtent_le cs
  have h2 := fractionExtent_le (cs.drop (digitsExtent cs))
  have h3 := exponentExtent_le
    (cs.drop (digitsExtent cs + fractionExtent (cs.drop (digitsExtent cs))))
  simp only [List.length_drop] at h2 h3
  simp only [numeralExtent]
  omega

theorem numeralExtent_append {rest : List Char} (h : Apart rest) (cs : List Char) :
    numeralExtent (cs ++ rest) = numeralExtent cs := by
  have h1 := digitsExtent_le cs
  have h2 := fractionExtent_le (cs.drop (digitsExtent cs))
  rw [List.length_drop] at h2
  simp only [numeralExtent, digitsExtent_append h]
  rw [List.drop_append_of_le_length h1, fractionExtent_append h,
    List.drop_append_of_le_length (by omega), exponentExtent_append h]

theorem quotedExtent_cons {quote : Char} {mode : QuotedMode} (hm : mode ≠ .closed)
    (fault : Option Fault) (c : Char) (cs : List Char) :
    quotedExtent quote mode fault (c :: cs)
      = ((quotedExtent quote (quotedStep quote mode c).1 (fault.or (quotedStep quote mode c).2)
            cs).1 + 1,
        (quotedExtent quote (quotedStep quote mode c).1 (fault.or (quotedStep quote mode c).2)
          cs).2) := by
  rw [quotedExtent, if_neg hm]

theorem quotedExtent_le (quote : Char) (mode : QuotedMode) (fault : Option Fault)
    (cs : List Char) : (quotedExtent quote mode fault cs).1 ≤ cs.length := by
  induction cs generalizing mode fault with
  | nil => unfold quotedExtent; split <;> simp
  | cons c cs ih =>
    rw [quotedExtent]
    split
    · exact Nat.zero_le _
    · exact Nat.succ_le_succ (ih ..)

/-- A string that is closed is not changed by what stands behind it. -/
theorem quotedExtent_append {quote : Char} {rest : List Char} (cs : List Char)
    {mode : QuotedMode} {fault : Option Fault}
    (h : (quotedExtent quote mode fault cs).2 = none) :
    quotedExtent quote mode fault (cs ++ rest) = quotedExtent quote mode fault cs := by
  induction cs generalizing mode fault with
  | nil =>
    -- a string that is still open at the end of its text would be a fault
    have hm : mode = .closed := by
      by_contra hm
      simp [quotedExtent, hm] at h
    subst hm
    cases rest <;> simp [quotedExtent]
  | cons c cs ih =>
    by_cases hm : mode = .closed
    · simp [quotedExtent, hm]
    · rw [quotedExtent_cons hm] at h
      rw [List.cons_append, quotedExtent_cons hm, quotedExtent_cons hm, ih h]

/-! ### Lexemes -/

/-- A lexeme ends within its text. -/
theorem read_le (c : Char) (cs : List Char) : (read c cs).2 ≤ cs.length := by
  have hhead : ∀ {d : Char}, cs.head? = some d → 1 ≤ cs.length := by
    intro d hd
    cases cs with
    | nil => simp at hd
    | cons => simp
  have hquoted := quotedExtent_le c (.body 0) none cs
  unfold read
  split <;> try exact Nat.zero_le _
  · split_ifs with h
    · exact hhead h
    · exact Nat.zero_le _
  · split_ifs with h
    · exact hhead h
    · exact Nat.zero_le _
  · split_ifs
    · exact numeralExtent_le cs
    · exact Nat.zero_le _
  · split_ifs
    · split <;> simp_all
    · exact numeralExtent_le cs
    · exact wordExtent_le cs
    · exact Nat.zero_le _

/-- A lexeme that is no error is not changed by what stands apart from it. -/
theorem read_append {rest : List Char} (hrest : Apart rest) {c : Char} {cs : List Char}
    (h : ∀ message, (read c cs).1 ≠ .error message) : read c (cs ++ rest) = read c cs := by
  have htake : ∀ {n : Nat}, n ≤ cs.length → (cs ++ rest).take n = cs.take n :=
    fun hn => List.take_append_of_le_length hn
  have hhead : cs ≠ [] → (cs ++ rest).head? = cs.head? := by
    intro hne
    rw [List.head?_append_of_ne_nil _ hne]
  have hnum := numeralExtent_append hrest cs
  unfold read at h ⊢
  split at h <;> simp only at h ⊢
  · -- an equals sign on its own is an error
    by_cases hne : cs = []
    · simp [hne] at h
    · rw [hhead hne]
  · by_cases hne : cs = []
    · simp [hne] at h
    · rw [hhead hne]
  · by_cases hne : cs = []
    · simp [hne] at h
    · rw [hhead hne, hnum, htake (numeralExtent_le cs)]
  · split_ifs at h ⊢ with hq hdig hw
    · cases he : quotedExtent c (.body 0) none cs with
      | mk n fault =>
        cases fault with
        | some fault => simp [he] at h
        | none =>
          have hle := quotedExtent_le c (.body 0) none cs
          rw [he] at hle
          rw [quotedExtent_append cs (by rw [he]), he]
          simp only [htake hle]
    · rw [hnum, htake (numeralExtent_le cs)]
    · rw [wordExtent_append hrest, htake (wordExtent_le cs)]
    · exact absurd rfl (h _)

/-- A word is a truth value, a reserved word or a name. -/
theorem wordKind_eq (w : String) :
    wordKind w = .boolean w ∨ wordKind w ∈ Token.reserved ∨ wordKind w = .identifier w := by
  unfold wordKind Token.keyword?
  split_ifs with hb
  · exact .inl rfl
  · cases hf : Token.reserved.find? fun kind => Text.sameWord w kind.spelling with
    | none => exact .inr (.inr rfl)
    | some kind => exact .inr (.inl (List.mem_of_find?_eq_some hf))

/-- A word is neither an error nor the end of the input. -/
theorem wordKind_ne {w : String} {kind : Token.Kind} (hvalue : kind.value? = none)
    (hreserved : kind ∉ Token.reserved) : wordKind w ≠ kind := by
  rintro rfl
  obtain h | h | h := wordKind_eq w
  · rw [h] at hvalue
    cases hvalue
  · exact hreserved h
  · rw [h] at hvalue
    cases hvalue

/-- The end of the input is no lexeme. -/
theorem read_ne_endOfInput (c : Char) (cs : List Char) : (read c cs).1 ≠ .endOfInput := by
  unfold read
  split <;> simp only <;> try exact Token.Kind.noConfusion
  all_goals split_ifs <;> try exact Token.Kind.noConfusion
  · split <;> exact Token.Kind.noConfusion
  · exact wordKind_ne rfl (by simp [Token.reserved])

/-! ### Words, numbers and strings -/

/-- The letters of ASCII by their numbers. -/
theorem isWordStart_iff {c : Char} : isWordStart c = true ↔ c.isAlpha = true ∨ c = '_' := by
  rw [isWordStart, Bool.or_eq_true, decide_eq_true_eq]

theorem isWordPart_iff {c : Char} :
    isWordPart c = true ↔ c.isAlpha = true ∨ c.isDigit = true ∨ c = '_' := by
  rw [isWordPart, Bool.or_eq_true, decide_eq_true_eq]
  show (c.isAlpha || c.isDigit) = true ∨ c = '_' ↔ _
  rw [Bool.or_eq_true, or_assoc]

/-- The characters of words are among the printing ones of ASCII. -/
theorem toNat_of_isWordPart {c : Char} (h : isWordPart c = true) :
    48 ≤ c.toNat ∧ c.toNat ≤ 122 := by
  rw [isWordPart_iff, Char.isAlpha_iff_toNat, Char.isDigit_iff_toNat] at h
  have h₀ : '0'.toNat = 48 := rfl
  have h₉ : '9'.toNat = 57 := rfl
  obtain h | h | rfl := h
  · omega
  · omega
  · decide

theorem isBlank_of_isWordPart {c : Char} (h : isWordPart c = true) : Text.isBlank c = false := by
  obtain ⟨h₁, h₂⟩ := toNat_of_isWordPart h
  simp [Text.isBlank, Text.inRanges, Text.blankRanges, Text.CodeRange.holds,
    Text.CodeRange.single]
  omega

theorem isWordPart_of_isWordStart {c : Char} (h : isWordStart c = true) : isWordPart c = true := by
  rw [isWordStart_iff] at h
  exact isWordPart_iff.mpr (h.imp_right .inr)

theorem isDigit_of_isWordStart {c : Char} (h : isWordStart c = true) : c.isDigit = false := by
  rw [isWordStart_iff, Char.isAlpha_iff_toNat] at h
  rw [← Bool.not_eq_true, Char.isDigit_iff_toNat]
  have h₉ : '9'.toNat = 57 := rfl
  obtain h | rfl := h
  · omega
  · decide

/-- A word is read from a letter or an underscore on. -/
theorem read_word {c : Char} (h : isWordStart c = true) (cs : List Char) :
    read c cs = (wordKind (String.ofList (c :: cs.take (wordExtent cs))), wordExtent cs) := by
  have hdigit := isDigit_of_isWordStart h
  unfold read
  -- the first eight cases are marks, none of which begins a word
  split
  iterate 8 exact absurd h (by decide)
  split_ifs with hq hd
  · simp only [Bool.or_eq_true, decide_eq_true_eq] at hq
    rcases hq with rfl | rfl <;> exact absurd h (by decide)
  · rw [hdigit] at hd
    cases hd
  · rfl

theorem read_digit {c : Char} (h : c.isDigit = true) (cs : List Char) :
    read c cs = (.number (String.ofList (c :: cs.take (numeralExtent cs))), numeralExtent cs) := by
  unfold read
  -- the first eight cases are marks again
  split
  iterate 8 exact absurd h (by decide)
  split_ifs with hq
  · simp only [Bool.or_eq_true, decide_eq_true_eq] at hq
    rcases hq with rfl | rfl <;> exact absurd h (by decide)
  · rfl

theorem numeralExtent_cons {c : Char} (h : c.isDigit = true) (cs : List Char) :
    numeralExtent (c :: cs) = numeralExtent cs + 1 := by
  have hdigits : digitsExtent (c :: cs) = digitsExtent cs + 1 := by
    rw [digitsExtent, List.takeWhile_cons_of_pos h, List.length_cons, digitsExtent]
  have hdrop : ∀ n, (c :: cs).drop (n + 1) = cs.drop n := fun n => List.drop_succ_cons
  simp only [numeralExtent, hdigits, hdrop]
  rw [show digitsExtent cs + 1 + fractionExtent (cs.drop (digitsExtent cs))
    = digitsExtent cs + fractionExtent (cs.drop (digitsExtent cs)) + 1 by omega, hdrop]
  omega

theorem one_le_numeralExtent {cs : List Char} (h : cs.head?.any Char.isDigit = true) :
    1 ≤ numeralExtent cs := by
  cases cs with
  | nil => cases h
  | cons d ds =>
    rw [numeralExtent_cons (by simpa using h)]
    omega

theorem read_quote {c : Char} (h : c = '"' ∨ c = '\'') {cs : List Char} {n : Nat}
    (hext : quotedExtent c (.body 0) none cs = (n, none)) :
    read c cs = (.string (String.ofList (c :: cs.take n)), n) := by
  rcases h with rfl | rfl
  · simp [read, hext]
  · simp [read, hext]

/-! ### Lexemes with nothing behind them -/

theorem digitsExtent_take {cs : List Char} {n : Nat} (h : digitsExtent cs ≤ n) :
    digitsExtent (cs.take n) = digitsExtent cs :=
  List.length_takeWhile_take h

theorem fractionExtent_take {cs : List Char} {n : Nat} (h : fractionExtent cs ≤ n) :
    fractionExtent (cs.take n) = fractionExtent cs := by
  cases cs with
  | nil => rw [List.take_nil]
  | cons c cs =>
    by_cases hc : c = '.'
    · subst hc
      cases n with
      | zero =>
        rw [Nat.le_zero.mp h]
        rfl
      | succ n =>
        have hle : digitsExtent cs ≤ n := by
          rw [fractionExtent] at h
          split at h <;> omega
        rw [List.take_succ_cons, fractionExtent, fractionExtent, digitsExtent_take hle]
    · cases n <;> simp [fractionExtent, hc]

theorem exponentExtent_take {cs : List Char} {n : Nat} (h : exponentExtent cs ≤ n) :
    exponentExtent (cs.take n) = exponentExtent cs := by
  cases cs with
  | nil => rw [List.take_nil]
  | cons mark cs =>
    cases n with
    | zero =>
      rw [Nat.le_zero.mp h]
      rfl
    | succ n =>
      rw [List.take_succ_cons]
      -- whether there is a sign is seen in front of the cut, unless nothing is left there
      by_cases hmark : mark = 'e' ∨ mark = 'E'
      · by_cases hs : cs.head? ≠ some '+' ∧ cs.head? ≠ some '-'
        · have hs' : (cs.take n).head? ≠ some '+' ∧ (cs.take n).head? ≠ some '-' := by
            cases n <;> cases cs <;> simp_all
          rw [exponentExtent_unsigned hs, if_pos hmark] at h
          have hle : digitsExtent cs ≤ n := by
            split_ifs at h <;> omega
          rw [exponentExtent_unsigned hs, exponentExtent_unsigned hs', digitsExtent_take hle]
        · obtain ⟨sign, ds, rfl, hsign⟩ := exists_sign hs
          rw [exponentExtent_signed hsign, if_pos hmark] at h
          rw [exponentExtent_signed hsign, if_pos hmark]
          cases n with
          | zero =>
            rw [List.take_zero, exponentExtent_unsigned (by simp), if_pos hmark]
            split_ifs at h with hd
            · rw [if_pos hd]
              rfl
            · omega
          | succ n =>
            have hle : digitsExtent ds ≤ n := by
              split_ifs at h <;> omega
            rw [List.take_succ_cons, exponentExtent_signed hsign, if_pos hmark,
              digitsExtent_take hle]
      · have hzero : ∀ ds, exponentExtent (mark :: ds) = 0 := fun ds => by
          simp [exponentExtent, hmark]
        rw [hzero, hzero]

theorem numeralExtent_take {cs : List Char} {n : Nat} (h : numeralExtent cs ≤ n) :
    numeralExtent (cs.take n) = numeralExtent cs := by
  have hdrop : ∀ i, i ≤ n → (cs.take n).drop i = (cs.drop i).take (n - i) := fun i _ => by
    rw [List.drop_take]
  -- the three parts of a number lie one behind the other in front of the cut
  generalize hw : digitsExtent cs = whole at h
  generalize hf : fractionExtent (cs.drop whole) = fraction
  generalize he : exponentExtent (cs.drop (whole + fraction)) = exponent
  have hext : numeralExtent cs = whole + fraction + exponent := by
    simp only [numeralExtent, hw, hf, he]
  rw [hext] at h ⊢
  have hw' : digitsExtent (cs.take n) = whole := by
    rw [digitsExtent_take (by omega), hw]
  have hf' : fractionExtent ((cs.take n).drop whole) = fraction := by
    rw [hdrop _ (by omega), fractionExtent_take (by omega), hf]
  have he' : exponentExtent ((cs.take n).drop (whole + fraction)) = exponent := by
    rw [hdrop _ (by omega), exponentExtent_take (by omega), he]
  simp only [numeralExtent, hw', hf', he']

/-- A string reaches as far if the text is cut off behind it, with the same faults in it. One that
is not closed reaches to the end of the text, and so it is not cut. -/
theorem quotedExtent_take {quote : Char} (cs : List Char) {mode : QuotedMode}
    {fault : Option Fault} {n : Nat} (hn : (quotedExtent quote mode fault cs).1 ≤ n) :
    quotedExtent quote mode fault (cs.take n) = quotedExtent quote mode fault cs := by
  induction cs generalizing mode fault n with
  | nil => rw [List.take_nil]
  | cons c cs ih =>
    -- induction along the string; a closed one has no extent left
    by_cases hmode : mode = .closed
    · cases n <;> simp [quotedExtent, hmode]
    · rw [quotedExtent_cons hmode] at hn ⊢
      obtain ⟨n, rfl⟩ : ∃ l, n = l + 1 := ⟨n - 1, by omega⟩
      rw [List.take_succ_cons, quotedExtent_cons hmode, ih (Nat.le_of_succ_le_succ hn)]

theorem wordExtent_take {cs : List Char} {n : Nat} (h : wordExtent cs ≤ n) :
    wordExtent (cs.take n) = wordExtent cs :=
  List.length_takeWhile_take h

/-- A lexeme is not changed if the text is cut off behind it. -/
theorem read_take {c : Char} {cs : List Char} {n : Nat} (hn : (read c cs).2 ≤ n) :
    read c (cs.take n) = read c cs := by
  have htake : ∀ {m : Nat}, m ≤ n → (cs.take n).take m = cs.take m := fun hm => by
    rw [List.take_take, Nat.min_eq_left hm]
  -- a character that is missed behind a mark does not come to stand there
  have hhead : ∀ {p : Option Char → Prop}, ¬p none → (p cs.head? → 1 ≤ n) →
      (p (cs.take n).head? ↔ p cs.head?) := by
    intro p hnone hp
    rw [List.head?_take]
    split_ifs with hzero
    · exact iff_of_false hnone fun h => absurd (hp h) (by omega)
    · exact Iff.rfl
  unfold read at hn ⊢
  split at hn <;> simp only at hn ⊢
  · have hequal := @hhead (· = some '=') nofun fun h => by rwa [if_pos h] at hn
    simp only [hequal]
  · have hequal := @hhead (· = some '=') nofun fun h => by rwa [if_pos h] at hn
    simp only [hequal]
  · have hdigit := @hhead (fun d => d.any Char.isDigit = true) nofun fun h => by
      rw [if_pos h] at hn
      exact Nat.le_trans (one_le_numeralExtent h) hn
    simp only [hdigit]
    split_ifs at hn ⊢
    · rw [numeralExtent_take hn, htake hn]
    · rfl
  · split_ifs at hn ⊢ with hq hdig hw
    · cases he : quotedExtent c (.body 0) none cs with
      | mk m fault =>
        rw [he] at hn
        have hm : m ≤ n := by cases fault <;> exact hn
        rw [quotedExtent_take cs (by rwa [he]), he]
        cases fault with
        | none => simp only [htake hm]
        | some fault => rfl
    · rw [numeralExtent_take hn, htake hn]
    · rw [wordExtent_take hn, htake hn]
    · rfl

end Lexeme

end NodeQuery
