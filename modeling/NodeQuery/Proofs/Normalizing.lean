/-
The shape of the constraints that are found in a text.

The fields of a block are trimmed, lose the name of a field at their end, and are trimmed again.
Breaks and blanks inside a value are squeezed, and the path loses the dots at its end. So the fields
of a constraint that is found in a text are neither blank nor have blanks around them, and its value
is on one line. Only the dots at the end of the path are not always gone: they are taken off once,
and blanks after that, so that dots in front of a gap stay.

* `Text.IsTrimmed`: texts that are neither blank nor have blanks around them;
  `isTrimmed_of_clean?`, `Constraint.isTrimmed_valueLine`: the texts of fields.
* `gappedDots`: the ends of paths at which a dot stays; `IsTrimmed.getLast?_path_iff`.
* `Constraint.IsNormal`: constraints of the shape; `extract_isNormal`: all that are found.
-/
import NodeQuery.Proofs.Deduping
import NodeQuery.Proofs.FieldTexts

namespace NodeQuery

/-! ### Trimmed texts -/

namespace Text

variable {p : Char → Bool}

theorem exists_eq_dropWhileEnd_append (p : Char → Bool) (cs : List Char) :
    ∃ g ∈ many p, cs = dropWhileEnd p cs ++ g :=
  ⟨cs.rtakeWhile p, fun _ hc => List.mem_rtakeWhile_imp hc,
    List.rdropWhile_append_rtakeWhile.symm⟩

theorem of_mem_getLast?_dropWhileEnd {cs : List Char} {c : Char}
    (h : c ∈ (dropWhileEnd p cs).getLast?) : p c = false := by
  obtain ⟨hne, rfl⟩ := List.mem_getLast?_eq_getLast h
  exact Bool.eq_false_iff.mpr (List.rdropWhile_last_not p cs hne)

theorem dropWhileEnd_eq_self {cs : List Char} (h : ∀ c ∈ cs.getLast?, p c = false) :
    dropWhileEnd p cs = cs := by
  refine List.rdropWhile_eq_self_iff.mpr fun hne => ?_
  simp [h _ (List.getLast?_eq_some_getLast hne)]

theorem dropWhileEnd_append {g : List Char} (hg : g ∈ many p) (cs : List Char) :
    dropWhileEnd p (cs ++ g) = dropWhileEnd p cs := by
  have hrev : ∀ c ∈ g.reverse, p c = true := fun c hc => hg c (List.mem_reverse.mp hc)
  rw [dropWhileEnd, List.reverse_append, List.dropWhile_append_of_pos hrev, dropWhileEnd]

/-- A text that is not blank, without blanks around it. -/
structure IsTrimmed (cs : List Char) : Prop where
  ne_nil : cs ≠ []
  head : ∀ c ∈ cs.head?, isBlank c = false
  last : ∀ c ∈ cs.getLast?, isBlank c = false

/-- What is left of a text is trimmed, if anything is left. -/
theorem isTrimmed_trimChars {cs : List Char} (h : trimChars cs ≠ []) :
    IsTrimmed (trimChars cs) := by
  refine ⟨h, fun c hc => ?_, fun c hc => of_mem_getLast?_dropWhileEnd hc⟩
  -- it begins with the first character that is not blank
  obtain ⟨g, -, hg⟩ := exists_eq_dropWhileEnd_append isBlank (cs.dropWhile isBlank)
  have hhead : (cs.dropWhile isBlank).head? = some c := by
    rw [hg]
    exact (List.head?_append_of_ne_nil _ h).trans hc
  have hnot := List.head?_dropWhile_not isBlank cs
  rw [hhead] at hnot
  simpa using hnot

theorem trimChars_append {g : List Char} (hg : g ∈ many isBlank) (cs : List Char) :
    trimChars (cs ++ g) = trimChars cs := by
  induction g using List.reverseRecOn with
  | nil => rw [List.append_nil]
  | append_singleton g c ih =>
    have hc : isBlank c = true := hg c (by simp)
    rw [← List.append_assoc, trimChars_concat hc, ih fun d hd => hg d (by simp [hd])]

theorem getLast?_trimChars_concat {c : Char} (hc : isBlank c = false) (cs : List Char) :
    (trimChars (cs ++ [c])).getLast? = some c := by
  have hdrop : (cs ++ [c]).dropWhile isBlank = cs.dropWhile isBlank ++ [c] := by
    rw [List.dropWhile_append]
    split_ifs with hempty
    · rw [List.isEmpty_iff.mp hempty, List.dropWhile_cons_of_neg (by simp [hc]), List.nil_append]
    · rfl
  have htrim : trimChars (cs ++ [c]) = cs.dropWhile isBlank ++ [c] := by
    rw [trimChars, hdrop]
    exact List.rdropWhile_concat_neg isBlank _ c (by simp [hc])
  rw [htrim, List.getLast?_concat]

/-- A text is what is left of it, with blanks around. -/
theorem exists_eq_append_trimChars (cs : List Char) :
    ∃ g ∈ many isBlank, ∃ h ∈ many isBlank, cs = g ++ (trimChars cs ++ h) := by
  obtain ⟨h, hh, hdrop⟩ := exists_eq_dropWhileEnd_append isBlank (cs.dropWhile isBlank)
  refine ⟨cs.takeWhile isBlank, fun c hc => List.mem_takeWhile_imp hc, h, hh, ?_⟩
  rw [trimChars, ← hdrop, List.takeWhile_append_dropWhile]

/-! ### Squeezed texts -/

variable {begins : Char → Bool} {inside : Bool} {cs : List Char}

theorem squeeze_concat {d : Char} (hd : isBlank d = false) (hbegins : begins d = false) :
    squeeze begins inside (cs ++ [d]) = squeeze begins inside cs ++ [d] := by
  induction cs generalizing inside with
  | nil => simp [squeeze, hd, hbegins]
  | cons c cs ih =>
    rw [List.cons_append, squeeze, squeeze]
    split_ifs <;> simp [ih]

/-- A squeezed text holds no character with which a run begins, unless this is a space. -/
theorem not_mem_squeeze {d : Char} (hd : begins d = true) (hspace : d ≠ ' ') :
    d ∉ squeeze begins inside cs := by
  induction cs generalizing inside with
  | nil => exact List.not_mem_nil
  | cons c cs ih =>
    rw [squeeze]
    split_ifs with hin hc
    · exact ih
    · exact List.not_mem_cons_of_ne_of_not_mem hspace ih
    · refine List.not_mem_cons_of_ne_of_not_mem ?_ ih
      rintro rfl
      exact hc hd

/-- A trimmed text stays trimmed if runs of blanks in it are squeezed. -/
theorem IsTrimmed.squeeze (h : IsTrimmed cs) (hblank : ∀ c, begins c = true → isBlank c = true) :
    IsTrimmed (squeeze begins false cs) := by
  have hplain {c : Char} (hc : isBlank c = false) : begins c = false := by
    rw [← Bool.not_eq_true]
    intro hbegins
    exact absurd (hblank c hbegins) (by simp [hc])
  -- the first and the last character are not blank, and stay where they are
  have hhead : (Text.squeeze begins false cs).head? = cs.head? := by
    cases cs with
    | nil => rfl
    | cons c cs =>
      have hc : begins c = false := hplain (h.head c rfl)
      rw [Text.squeeze, Bool.false_and, if_neg Bool.false_ne_true, if_neg (by simp [hc])]
      rfl
  have hlast : (Text.squeeze begins false cs).getLast? = cs.getLast? := by
    obtain ⟨init, d, rfl⟩ := (List.eq_nil_or_concat' cs).resolve_left h.ne_nil
    have hd : isBlank d = false := h.last d (by simp)
    rw [squeeze_concat hd (hplain hd), List.getLast?_concat, List.getLast?_concat]
  refine ⟨fun hnil => h.ne_nil ?_, fun c hc => h.head c (hhead ▸ hc),
    fun c hc => h.last c (hlast ▸ hc)⟩
  rw [← List.head?_eq_none_iff, ← hhead, hnil, List.head?_nil]

end Text

/-! ### Texts of fields -/

/-- The text of a field in a block, if it is there and not blank. -/
def Field.textIn? (f : Field) (block : List Char) : Option (List Char) :=
  ((fieldTexts block).lookup f).bind clean?

theorem isTrimmed_of_clean? {text t : List Char} (h : clean? text = some t) : Text.IsTrimmed t := by
  simp only [clean?] at h
  split_ifs at h with hempty
  rw [Option.some.injEq] at h
  rw [List.isEmpty_iff, h] at hempty
  -- with and without the name of a field at its end, the text has been trimmed last
  obtain ⟨rest, rfl⟩ : ∃ rest, t = Text.trimChars rest := by
    split at h
    · exact ⟨_, h.symm⟩
    · exact ⟨_, h.symm⟩
  exact Text.isTrimmed_trimChars hempty

theorem Field.isTrimmed_of_textIn? {f : Field} {block t : List Char}
    (h : f.textIn? block = some t) : Text.IsTrimmed t := by
  obtain ⟨text, -, htext⟩ := Option.bind_eq_some_iff.mp h
  exact isTrimmed_of_clean? htext

theorem Constraint.isTrimmed_valueLine {t : List Char} (h : Text.IsTrimmed t) :
    Text.IsTrimmed (valueLine t) := by
  rw [valueLine]
  split_ifs
  · refine h.squeeze fun c hc => ?_
    rw [of_decide_eq_true hc]
    decide
  · exact h.squeeze fun c hc => hc

theorem Constraint.not_mem_valueLine (t : List Char) : '\n' ∉ valueLine t := by
  rw [valueLine]
  split_ifs
  · exact Text.not_mem_squeeze (by decide) (by decide)
  · exact Text.not_mem_squeeze (by decide) (by decide)

/-! ### Dots at the end of a path -/

/-- A dot, a gap, and dots at the end. -/
def gappedDots : Language Char :=
  {['.']} * (Text.atLeastOne Text.isBlank * Text.atLeastOne (· = '.'))

/-- When the dots at its end and the blanks in front of them have been taken off, a text ends in a
dot just if there was one in front of the blanks. -/
theorem Text.IsTrimmed.getLast?_path_iff {t : List Char} (h : IsTrimmed t) :
    (trimChars (dropWhileEnd (· = '.') t)).getLast? = some '.' ↔ ∃ e ∈ gappedDots, e <:+ t := by
  constructor
  · intro hdot
    obtain ⟨d, hd, ht⟩ := exists_eq_dropWhileEnd_append (· = '.') t
    set u := dropWhileEnd (· = '.') t with hu
    obtain ⟨a, -, g, hg, hsplit⟩ := exists_eq_append_trimChars u
    obtain ⟨w, hw⟩ := List.getLast?_eq_some_iff.mp hdot
    rw [hw] at hsplit
    have hgap : g ≠ [] := by
      -- or else the dot would have been taken off
      rintro rfl
      have hlast : '.' ∈ u.getLast? := by simp [hsplit]
      exact absurd (of_mem_getLast?_dropWhileEnd hlast) (by decide)
    have hdots : d ≠ [] := by
      -- or else the text would end in a blank
      rintro rfl
      obtain ⟨init, b, rfl⟩ := (List.eq_nil_or_concat' g).resolve_left hgap
      have hlast : b ∈ t.getLast? := by
        rw [ht, hsplit]
        simp only [List.append_nil, ← List.append_assoc, List.getLast?_concat, Option.mem_def]
      have hb : isBlank b = true := hg b (by simp)
      rw [h.last b hlast] at hb
      cases hb
    refine ⟨['.'] ++ (g ++ d), Language.append_mem_mul (Set.mem_singleton ['.'])
      (Language.append_mem_mul ⟨hgap, hg⟩ ⟨hdots, hd⟩), a ++ w, ?_⟩
    rw [ht, hsplit]
    simp
  · rintro ⟨_, ⟨_, rfl, _, ⟨g, ⟨hgap, hg⟩, d, ⟨-, hd⟩, rfl⟩, rfl⟩, x, rfl⟩
    have hassoc : x ++ (['.'] ++ (g ++ d)) = x ++ ['.'] ++ g ++ d := by simp
    have hlast : ∀ c ∈ (x ++ ['.'] ++ g).getLast?, decide (c = '.') = false := by
      intro c hc
      rw [List.getLast?_append_of_ne_nil _ hgap] at hc
      have hblank : isBlank c = true := hg c (List.mem_of_mem_getLast? hc)
      refine decide_eq_false ?_
      rintro rfl
      exact absurd hblank (by decide)
    rw [hassoc, dropWhileEnd_append hd, dropWhileEnd_eq_self hlast, trimChars_append hg]
    exact getLast?_trimChars_concat (by decide) x

/-! ### Constraints -/

namespace Constraint

/-- What holds of each constraint that is found in a text from an origin. -/
structure IsNormal (origin : Origin) (c : Constraint) : Prop where
  path : Text.IsTrimmed c.path.toList
  origin_eq : c.origin = origin
  operator : c.action ≠ .delete → ∃ op ∈ c.operator?, Text.IsTrimmed op.toList
  value : c.action ≠ .delete → ∃ v ∈ c.value?, Text.IsTrimmed v.toList ∧ '\n' ∉ v.toList
  former : c.action = .add → c.former? = none
  deleted : c.action = .delete → c.value? = none

theorem isTrimmed_of_operator {block : List Char} {op : String}
    (h : (Field.operator.textIn? block).map String.ofList = some op) :
    Text.IsTrimmed op.toList := by
  obtain ⟨t, ht, rfl⟩ := Option.map_eq_some_iff.mp h
  rw [String.toList_ofList]
  exact Field.isTrimmed_of_textIn? ht

theorem isTrimmed_of_value {block : List Char} {v : String}
    (h : (Field.value.textIn? block).map (fun t => String.ofList (valueLine t)) = some v) :
    Text.IsTrimmed v.toList ∧ '\n' ∉ v.toList := by
  obtain ⟨t, ht, rfl⟩ := Option.map_eq_some_iff.mp h
  rw [String.toList_ofList]
  exact ⟨isTrimmed_valueLine (Field.isTrimmed_of_textIn? ht), not_mem_valueLine t⟩

/-- The constraint of a block has the path that the block names, without the dots at its end and
then without blanks around it. -/
theorem isNormal_of_ofBlock? {origin : Origin} {block : List Char} {c : Constraint}
    (h : ofBlock? origin block = some c) :
    c.IsNormal origin ∧ ∃ t ∈ Field.path.textIn? block,
      c.path.toList = Text.trimChars (Text.dropWhileEnd (· = '.') t) := by
  obtain ⟨type, -, h⟩ := Option.bind_eq_some_iff.mp h
  obtain ⟨t, ht, h⟩ := Option.bind_eq_some_iff.mp h
  simp only [Option.bind_eq_bind] at h
  split_ifs at h with hempty
  · cases h
  have hpath : (String.ofList (Text.trimChars (Text.dropWhileEnd (· = '.') t))).toList
      = Text.trimChars (Text.dropWhileEnd (· = '.') t) := String.toList_ofList
  have htrimmed : Text.IsTrimmed (Text.trimChars (Text.dropWhileEnd (· = '.') t)) := by
    rw [List.isEmpty_iff] at hempty
    exact Text.isTrimmed_trimChars hempty
  rw [← hpath] at htrimmed
  cases haction : Action.ofText type with
  | delete =>
    rw [haction] at h
    cases h
    exact ⟨⟨htrimmed, rfl, by simp, by simp, by simp, fun _ => rfl⟩, t, ht, hpath⟩
  | edit | add =>
    rw [haction] at h
    obtain ⟨op, hop, h⟩ := Option.bind_eq_some_iff.mp h
    obtain ⟨v, hv, h⟩ := Option.bind_eq_some_iff.mp h
    cases h
    exact ⟨⟨htrimmed, rfl, fun _ => ⟨op, rfl, isTrimmed_of_operator hop⟩,
      fun _ => ⟨v, rfl, isTrimmed_of_value hv⟩, by simp, by simp⟩, t, ht, hpath⟩

end Constraint

/-! ### Constraints in a text -/

/-- A constraint that is found in a text is that of one of its blocks. -/
theorem exists_block_of_mem_extract {settings : Settings} {origin : Constraint.Origin}
    {text : String} {c : Constraint} (h : c ∈ extract settings origin text) :
    ∃ block ∈ blocks (constraintsPart text.toList), Constraint.ofBlock? origin block = some c := by
  rw [extract] at h
  split_ifs at h
  · rw [Constraint.dedupe_eq_firsts] at h
    exact List.mem_filterMap.mp ((Constraint.firsts_sublist _).subset h)
  · exact List.mem_filterMap.mp h

/-- Each constraint that is found in a text is that of one of its blocks: its path, and unless it is
a deletion, its operator and its value are trimmed, and its value is on one line. Its path ends in a
dot just if what the block has for the path ends in a dot, a gap and more dots. -/
theorem extract_isNormal {settings : Settings} {origin : Constraint.Origin} {text : String}
    {c : Constraint} (h : c ∈ extract settings origin text) :
    c.IsNormal origin
      ∧ ∃ block ∈ blocks (constraintsPart text.toList), ∃ t ∈ Field.path.textIn? block,
        Constraint.ofBlock? origin block = some c
          ∧ (c.path.toList.getLast? = some '.' ↔ ∃ e ∈ gappedDots, e <:+ t) := by
  obtain ⟨block, hblock, hc⟩ := exists_block_of_mem_extract h
  obtain ⟨hnormal, t, ht, hpath⟩ := Constraint.isNormal_of_ofBlock? hc
  refine ⟨hnormal, block, hblock, t, ht, hc, ?_⟩
  rw [hpath]
  exact (Field.isTrimmed_of_textIn? ht).getLast?_path_iff

/-- The dots at the end of a path and the blanks around it are gone. -/
theorem extract_isNormal_edit :
    let text := "- Type: edit\n- Path:  fc.name.. \n- Operator: ==\n- Value: a\n  b;c\n"
      ++ "- Original Value: a"
    let c : Constraint := ⟨"fc.name", "==", "a b;c", .edit, true, "a", .falsePositive⟩
    c ∈ extract {} .falsePositive text ∧ c.IsNormal .falsePositive
      ∧ ∃ block ∈ blocks (constraintsPart text.toList), ∃ t ∈ Field.path.textIn? block,
        Constraint.ofBlock? .falsePositive block = some c
          ∧ (c.path.toList.getLast? = some '.' ↔ ∃ e ∈ gappedDots, e <:+ t) := by
  intro text c
  have hc : c ∈ extract {} .falsePositive text := by decide +kernel
  exact ⟨hc, extract_isNormal hc⟩

/-- A dot in front of a gap is not taken off. -/
theorem extract_gappedDots :
    ¬ ∀ c ∈ extract {} .unknown "Type: del\nPath: fc. .", c.path.toList.getLast? ≠ some '.' := by
  decide +kernel

end NodeQuery
