/-
The texts that a field can have on a line.

The text of a field goes up to the end of its line, and then loses the name of a field at its end.
The header of a block may stand anywhere in a line. A text without these two, on one line and
without blanks that would be trimmed or squeezed, is read back as it is.

* `headers`, `endingNames`: the languages of headers and of names at the end, written as regular
  expressions; `recognizes_header`, `firstMatch?_endingName_eq_none_iff`.
* `IsFieldText`: the texts that come through; `IsFieldText.clean?_eq`,
  `IsFieldText.valueLine_eq`, `IsFieldText.avoids_header`: what is done to them.
-/
import Mathlib.Tactic.MkIffOfInductiveProp
import NodeQuery.Constraint.Extract
import NodeQuery.Proofs.Patterns
import NodeQuery.Proofs.Selecting

namespace NodeQuery

/-! ### Headers -/

/-- The word `Constraint`, blanks, digits, perhaps blanks, and a colon. -/
def headers : Language Char :=
  Text.caseless "constraint".toList * (Text.atLeastOne Text.isBlank
    * (Text.atLeastOne Text.isDecimalDigit * (Text.many Text.isBlank * {[':']})))

/-- No character lies in two ranges that have no code point in common. -/
theorem Text.inRanges_of_disjoint {rs ss : List CodeRange}
    (h : ∀ r ∈ rs, ∀ s ∈ ss, r.last < s.first ∨ s.last < r.first) {c : Char}
    (hc : inRanges rs c = true) : inRanges ss c = false := by
  obtain ⟨r, hr, hrc⟩ := List.any_eq_true.mp hc
  rw [inRanges, List.any_eq_false]
  intro s hs hsc
  simp only [CodeRange.holds, Bool.and_eq_true, decide_eq_true_eq] at hrc hsc
  rcases h r hr s hs with hlt | hlt
  · omega
  · omega

theorem Text.isBlank_of_isDecimalDigit {c : Char} (h : isDecimalDigit c = true) :
    isBlank c = false :=
  inRanges_of_disjoint (by decide) h

theorem Text.isDecimalDigit_of_isBlank {c : Char} (h : isBlank c = true) :
    isDecimalDigit c = false :=
  inRanges_of_disjoint (by decide) h

theorem recognizes_header : header.Recognizes headers := by
  have hcolon (p : Char → Bool) (h : p ':' = false) : Text.BeginsOutside p {[':']} := by
    rintro m rfl
    exact ⟨':', [], rfl, h⟩
  refine (Text.recognizes_word _).bind (((((Text.recognizes_oneOf ':').dropWhile
    (hcolon _ (by decide))).run_bind ?_)).run_bind ?_)
  · exact (hcolon _ (by decide)).many_mul fun c hc => Text.isDecimalDigit_of_isBlank hc
  · exact (Text.BeginsOutside.atLeastOne fun c hc => Text.isBlank_of_isDecimalDigit hc).mul

/-- A header begins with the first letter of its word. -/
theorem avoids_header_of_all {cs : List Char} (h : cs.all (Text.foldCase · ≠ 'c') = true)
    (rest : List Char) : header.Avoids cs rest := by
  refine .of_forall fun c hc ds => ?_
  have hne : Text.foldCase c ≠ 'c' := of_decide_eq_true (List.all_eq_true.mp h c hc)
  have hword : Text.word "constraint".toList (c :: ds) = none := if_neg hne
  rw [header, hword]
  rfl

/-- A header ends with its colon, and no dash is in it. -/
theorem headers_form {m : List Char} (h : m ∈ headers) : m.getLast? = some ':' ∧ '-' ∉ m := by
  simp only [headers, Language.mem_mul] at h
  obtain ⟨w, hw, _, ⟨g, hg, _, ⟨d, hd, _, ⟨g', hg', _, rfl, rfl⟩, rfl⟩, rfl⟩, rfl⟩ := h
  constructor
  · simp
  · have hnoword : '-' ∉ w := by
      intro hmem
      have hfold := List.mem_map_of_mem (f := Text.foldCase) hmem
      rw [Text.mem_caseless.mp hw] at hfold
      revert hfold
      decide
    have hnoblank {g : List Char} (hg : g ∈ Text.many Text.isBlank) : '-' ∉ g :=
      fun hmem => absurd (hg _ hmem) (by decide)
    have hnodigit : '-' ∉ d := fun hmem => absurd (hd.2 _ hmem) (by decide)
    simp [hnoword, hnoblank hg.2, hnodigit, hnoblank hg']

theorem ne_nil_of_mem_headers {m : List Char} (h : m ∈ headers) : m ≠ [] := by
  rintro rfl
  cases (headers_form h).1

/-! ### Names at the end -/

/-- Perhaps a colon, and perhaps blanks around it. -/
def closings : Language Char :=
  Text.many Text.isBlank * ((1 + {[':']}) * Text.many Text.isBlank)

/-- The names of fields, as they may be written. -/
def fieldNames : Language Char :=
  {m | ∃ f : Field, m ∈ Text.spelled f.words}

/-- Blanks and the name of a field, and perhaps a colon behind it. -/
def endingNames : Language Char :=
  Text.atLeastOne Text.isBlank * (fieldNames * closings)

/-- The end of a text, perhaps with a colon in front of it. -/
def closing : Text.Pattern := fun cs =>
  let behind := cs.dropWhile Text.isBlank
  let behind := match behind with
    | ':' :: cs => cs.dropWhile Text.isBlank
    | _ => behind
  if behind.isEmpty then some behind else none

theorem Field.mem_all (f : Field) : f ∈ all := by
  cases f <;> decide

theorem Field.words_begin (f : Field) :
    ∀ w ∈ f.words, ∃ c cs, w = c :: cs ∧ Text.isBlank c = false := by
  cases f <;> simp [words] <;> decide

theorem endingName_eq (cs : List Char) :
    endingName cs = (Text.blanks cs).bind fun rest =>
      Field.all.findSome? fun f => (Text.words f.words rest).bind closing :=
  Option.bind_congr fun _ _ => bind_pure _

theorem mem_closings {cs : List Char} :
    cs ∈ closings ↔ cs ∈ Text.many Text.isBlank
      ∨ ∃ g ∈ Text.many Text.isBlank, ∃ h ∈ Text.many Text.isBlank, cs = g ++ ':' :: h := by
  simp only [closings, Language.mem_mul, Language.mem_add, Language.mem_one]
  constructor
  · rintro ⟨g, hg, _, ⟨_, rfl | rfl, h, hh, rfl⟩, rfl⟩
    · left
      intro c hc
      rcases List.mem_append.mp hc with hc | hc
      · exact hg c hc
      · exact hh c hc
    · exact .inr ⟨g, hg, h, hh, rfl⟩
  · rintro (hcs | ⟨g, hg, h, hh, rfl⟩)
    · exact ⟨[], List.forall_mem_nil _, cs, ⟨[], .inl rfl, cs, hcs, rfl⟩, rfl⟩
    · exact ⟨g, hg, ':' :: h, ⟨[':'], .inr rfl, h, hh, rfl⟩, rfl⟩

theorem closing_eq_some_iff {cs rest : List Char} :
    closing cs = some rest ↔ cs ∈ closings ∧ rest = [] := by
  rw [mem_closings]
  constructor
  · intro h
    simp only [closing] at h
    split at h
    · rename_i tail hdrop
      split_ifs at h with hempty
      rw [List.isEmpty_iff] at hempty
      refine ⟨.inr ⟨cs.takeWhile Text.isBlank, fun c hc => List.mem_takeWhile_imp hc, tail,
        List.dropWhile_eq_nil_iff.mp hempty, ?_⟩, by rw [← Option.some.inj h, hempty]⟩
      rw [← hdrop, List.takeWhile_append_dropWhile]
    · split_ifs at h with hempty
      rw [List.isEmpty_iff] at hempty
      exact ⟨.inl (List.dropWhile_eq_nil_iff.mp hempty), by rw [← Option.some.inj h, hempty]⟩
  · rintro ⟨hcs | ⟨g, hg, t, ht, rfl⟩, rfl⟩
    · have hdrop : cs.dropWhile Text.isBlank = [] := List.dropWhile_eq_nil_iff.mpr hcs
      simp [closing, hdrop]
    · have hdrop : (g ++ ':' :: t).dropWhile Text.isBlank = ':' :: t := by
        rw [List.dropWhile_append_of_pos hg]
        rfl
      have htail : t.dropWhile Text.isBlank = [] := List.dropWhile_eq_nil_iff.mpr ht
      simp [closing, hdrop, htail]

theorem endingName_eq_none_iff {cs : List Char} : endingName cs = none ↔ cs ∉ endingNames := by
  have hwords (f : Field) : (Text.words f.words).Recognizes (Text.spelled f.words) :=
    Text.recognizes_words f.words_begin
  rw [endingName_eq]
  constructor
  · intro hnone hcs
    obtain ⟨g, hg, m, hm, rfl⟩ := Language.mem_mul.mp hcs
    obtain ⟨n, ⟨f, hn⟩, t, ht, rfl⟩ := Language.mem_mul.mp hm
    have hout : Text.BeginsOutside Text.isBlank (Text.spelled f.words) := by
      cases f <;> exact Text.beginsOutside_spelled (by decide)
    rw [Text.blanks, hout.run_append hn hg, Option.bind_some, List.findSome?_eq_none_iff] at hnone
    have hf := hnone f f.mem_all
    rw [(hwords f).eq_some hn, Option.bind_some, closing_eq_some_iff.mpr ⟨ht, rfl⟩] at hf
    cases hf
  · intro hcs
    rw [Option.bind_eq_none_iff]
    intro rest hrest
    obtain ⟨g, hg, rfl⟩ := Text.exists_of_run hrest
    rw [List.findSome?_eq_none_iff]
    intro f _
    rw [Option.bind_eq_none_iff]
    intro behind hbehind
    obtain ⟨n, hn, rfl⟩ := (hwords f rest behind).mp hbehind
    rw [Option.eq_none_iff_forall_ne_some]
    intro r hr
    refine hcs (Language.append_mem_mul hg ?_)
    exact Language.append_mem_mul ⟨f, hn⟩ (closing_eq_some_iff.mp hr).1

theorem firstMatch?_endingName_eq_none_iff {t : List Char} :
    Text.firstMatch? endingName t = none ↔ ∀ e ∈ endingNames, ¬ e <:+ t := by
  simp only [Text.firstMatch?_eq_none_iff, endingName_eq_none_iff]
  exact ⟨fun h e he hsuffix => h e hsuffix he, fun h s hs hmem => h s hmem hs⟩

/-! ### Texts that are read back as they are -/

namespace Text

theorem trimChars_cons {c : Char} (hc : isBlank c = true) (cs : List Char) :
    trimChars (c :: cs) = trimChars cs := by
  rw [trimChars, List.dropWhile_cons_of_pos hc, trimChars]

theorem trimChars_concat {c : Char} (hc : isBlank c = true) (cs : List Char) :
    trimChars (cs ++ [c]) = trimChars cs := by
  rw [trimChars, List.dropWhile_append]
  split_ifs with hempty
  · -- in a text of blanks nothing is left either way
    rw [trimChars, List.isEmpty_iff.mp hempty, List.dropWhile_cons_of_pos hc]
    rfl
  · exact List.rdropWhile_concat_pos isBlank _ c hc

theorem squeezeBlanks_eq_self {cs : List Char} (hspace : ∀ c ∈ cs, isBlank c = true → c = ' ')
    (hsingle : ¬ [' ', ' '] <:+: cs) : squeezeBlanks cs = cs := by
  rw [squeezeBlanks]
  induction cs with
  | nil => rfl
  | cons c cs ih =>
    rw [List.forall_mem_cons] at hspace
    have ih := ih hspace.2 fun hinfix => hsingle (List.infix_cons hinfix)
    rw [squeeze, Bool.false_and, if_neg Bool.false_ne_true]
    split_ifs with hc
    · obtain rfl := hspace.1 hc
      cases cs with
      | nil => rfl
      | cons d cs =>
        have hd : isBlank d = false := by
          rw [← Bool.not_eq_true]
          intro hd
          obtain rfl := hspace.2 d (List.mem_cons_self ..) hd
          exact hsingle (List.prefix_append [' ', ' '] cs).isInfix
        simp only [squeeze, hd] at ih ⊢
        simpa using ih
    · rw [ih]

theorem squeezeBreaks_eq_self {cs : List Char} (h : '\n' ∉ cs) : squeezeBreaks cs = cs := by
  rw [squeezeBreaks]
  induction cs with
  | nil => rfl
  | cons c cs ih =>
    rw [List.mem_cons, not_or] at h
    rw [squeeze, Bool.false_and, if_neg Bool.false_ne_true, if_neg (by simp [Ne.symm h.1]), ih h.2]

end Text

/-- The texts that a field can have on a line of its own: not blank, trimmed, with single spaces
only, without a bracket that opens, without a header in them and without the name of a field at
their end. -/
@[mk_iff]
structure IsFieldText (t : List Char) : Prop where
  ne_nil : t ≠ []
  head : ∀ c ∈ t.head?, Text.isBlank c = false
  last : ∀ c ∈ t.getLast?, Text.isBlank c = false
  space : ∀ c ∈ t, Text.isBlank c = true → c = ' '
  single : ¬ [' ', ' '] <:+: t
  bracket : '[' ∉ t
  header : ∀ m ∈ headers, ¬ m <:+: t
  ending : ∀ e ∈ endingNames, ¬ e <:+ t

instance : DecidablePred IsFieldText := fun t =>
  decidable_of_iff (t ≠ [] ∧ t.head?.all (! Text.isBlank ·) = true
      ∧ t.getLast?.all (! Text.isBlank ·) = true
      ∧ t.all (fun c => ! Text.isBlank c || c = ' ') = true ∧ ¬ [' ', ' '] <:+: t
      ∧ '[' ∉ t ∧ Text.firstMatch? header t = none
      ∧ Text.firstMatch? endingName t = none) <| by
    rw [isFieldText_iff, recognizes_header.firstMatch?_eq_none_iff,
      firstMatch?_endingName_eq_none_iff]
    simp [Option.all_eq_true, ← Bool.not_eq_true, imp_iff_not_or]

namespace IsFieldText

variable {t : List Char}

theorem not_mem (h : IsFieldText t) {c : Char} (hc : Text.isBlank c = true) (hne : c ≠ ' ') :
    c ∉ t :=
  fun hmem => hne (h.space c hmem hc)

theorem trimChars_eq (h : IsFieldText t) : Text.trimChars t = t :=
  Text.trimChars_eq_self h.head h.last

theorem clean?_eq (h : IsFieldText t) : clean? t = some t := by
  have hending : Text.firstMatch? endingName t = none :=
    firstMatch?_endingName_eq_none_iff.mpr h.ending
  simp [clean?, h.trimChars_eq, hending, h.ne_nil]

theorem valueLine_eq (h : IsFieldText t) : Constraint.valueLine t = t := by
  rw [Constraint.valueLine]
  split_ifs
  · exact Text.squeezeBreaks_eq_self (h.not_mem (by decide) (by decide))
  · exact Text.squeezeBlanks_eq_self h.space h.single

/-- No header begins in the text, also if an item of a list is on the line behind it. -/
theorem avoids_header (h : IsFieldText t) (rest : List Char) :
    Text.Pattern.Avoids NodeQuery.header t ('\n' :: '-' :: rest) := by
  refine .of_recognizes recognizes_header h.header ?_
  -- a header that goes over to the next line would hold the dash or end before it
  rintro u v hv hprefix - hmem
  obtain ⟨hlast, hdash⟩ := headers_form hmem
  rcases v with _ | ⟨c, _ | ⟨d, v⟩⟩
  · exact hv rfl
  · obtain ⟨rfl, -⟩ := List.cons_prefix_cons.mp hprefix
    simp at hlast
  · obtain ⟨-, hprefix⟩ := List.cons_prefix_cons.mp hprefix
    obtain ⟨rfl, -⟩ := List.cons_prefix_cons.mp hprefix
    exact hdash (by simp)

end IsFieldText

end NodeQuery
