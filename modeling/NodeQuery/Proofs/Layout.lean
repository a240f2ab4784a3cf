/-
Numbered lists of constraints, and reading them back.

A list of constraints is written with a header for each of them and one field on each line. In
texts that may stand on such a line nothing looks like a header, so the headers that are found are
those that were written, and each block between them has the fields of one constraint. So what is
read of the list are the constraints, wherever the list stands in a text.

* `Constraint.lines`, `Constraint.layout`: the list.
* `Constraint.IsListable`: the constraints that a list can hold.
* `Constraint.ofBlock?_block`: the constraint that a block describes.
* `Constraint.filterMap_splitAround_header`: the constraints that the blocks of a list describe.
* `extract_layout`: the constraints that are found in a text around a list.
-/
import NodeQuery.Proofs.Items

namespace NodeQuery

/-! ### Constraints in lists -/

namespace Constraint

/-- The word for the sign of a constraint. -/
def signWord (c : Constraint) : String :=
  if c.isNegative then "yes" else "no"

/-- The text that a constraint has for a field, if it has one. -/
def fieldText? (c : Constraint) : Field → Option String
  | .type => some c.action.name
  | .path => some c.path
  | .operator => c.operator?
  | .value => c.value?
  | .formerValue => c.former?
  | .isNegative => some c.signWord

/-- The fields of a constraint with their texts, in the order of a list. -/
def fields (c : Constraint) : List (Field × String) :=
  Field.inOrder.filterMap fun f => (c.fieldText? f).map (f, ·)

/-- The header of a block in a list. -/
def headerLine (number : ℕ) : String :=
  "Constraint " ++ toString number ++ ":"

/-- The lines of a constraint in a list, under a number. -/
def lines (c : Constraint) (number : ℕ) : List String :=
  headerLine number :: fieldLines c.fields

/-- Constraints as a numbered list, with one item on each line. -/
def layout (cs : List Constraint) : String :=
  Text.joinWith "\n" (["[CONSTRAINTS]"] ++ (cs.zipIdx 1).flatMap (fun x => x.1.lines x.2)
    ++ ["[/CONSTRAINTS]"])

/-- The constraints that a list can hold: their texts can stand on lines, the path ends with no
dot, an addition or an edit has an operator and a value, a former value is there for edits and
deletions only, and a deletion has no value. -/
@[mk_iff]
structure IsListable (c : Constraint) : Prop where
  path : IsFieldText c.path.toList
  path_end : c.path.toList.getLast? ≠ some '.'
  operator : ∀ text ∈ c.operator?, IsFieldText text.toList
  value : ∀ text ∈ c.value?, IsFieldText text.toList
  former : ∀ text ∈ c.former?, IsFieldText text.toList
  comparison : c.action ≠ .delete → c.operator?.isSome ∧ c.value?.isSome
  former_of : c.former?.isSome → c.action ≠ .add
  value_of : c.action = .delete → c.value? = none

instance : DecidablePred IsListable := fun c =>
  decidable_of_iff' _ (isListable_iff c)

theorem lookup_fields (c : Constraint) (f : Field) : c.fields.lookup f = c.fieldText? f := by
  have key (fs : List Field) :
      (fs.filterMap fun g => (c.fieldText? g).map (g, ·)).lookup f
        = if f ∈ fs then c.fieldText? f else none := by
    induction fs with
    | nil => rfl
    | cons g fs ih =>
      by_cases hg : f = g
      · subst hg
        cases htext : c.fieldText? f with
        | none => simp [ih, htext]
        | some text => simp [htext]
      · cases htext : c.fieldText? g with
        | none => simp [ih, htext, hg]
        | some text => simp [ih, htext, hg, List.lookup_cons, beq_false_of_ne hg]
  rw [fields, key, if_pos (by cases f <;> decide)]

/-- The sign is the last field. -/
theorem fields_concat (c : Constraint) :
    ∃ front, c.fields = front ++ [(.isNegative, c.signWord)] := by
  have horder : Field.inOrder = Field.inOrder.dropLast ++ [.isNegative] := rfl
  rw [fields, horder, List.filterMap_append]
  exact ⟨_, rfl⟩

theorem IsListable.isFieldText_of_fieldText? {c : Constraint} (h : c.IsListable) {f : Field}
    {text : String} (htext : c.fieldText? f = some text) : IsFieldText text.toList := by
  cases f with
  | type =>
    obtain rfl := Option.some.inj htext
    cases c.action <;> decide
  | path => exact Option.some.inj htext ▸ h.path
  | operator => exact h.operator text htext
  | value => exact h.value text htext
  | formerValue => exact h.former text htext
  | isNegative =>
    obtain rfl := Option.some.inj htext
    rw [signWord]
    split_ifs <;> decide

theorem IsListable.isFieldText {c : Constraint} (h : c.IsListable) :
    ∀ x ∈ c.fields, IsFieldText x.2.toList := by
  intro x hx
  obtain ⟨f, -, hf⟩ := List.mem_filterMap.mp hx
  obtain ⟨text, htext, rfl⟩ := Option.map_eq_some_iff.mp hf
  exact h.isFieldText_of_fieldText? htext

/-- The block of a constraint in a list: what stands behind the header. -/
def block (c : Constraint) : List Char :=
  newLines (fieldLines c.fields)

section Reading

variable {c : Constraint}

theorem IsListable.lookup_fieldTexts (h : c.IsListable) {block : List Char}
    (hblock : fieldTexts block = c.fields.map fun x => (x.1, x.2.toList)) (f : Field) :
    ((fieldTexts block).lookup f).bind clean? = (c.fieldText? f).map String.toList := by
  have hlookup : (fieldTexts block).lookup f = (c.fieldText? f).map String.toList := by
    rw [hblock, ← c.lookup_fields]
    induction c.fields with
    | nil => rfl
    | cons x fields ih =>
      rw [List.map_cons, List.lookup_cons, List.lookup_cons, ih]
      cases f == x.1 <;> rfl
  rw [hlookup]
  cases htext : c.fieldText? f with
  | none => rfl
  | some text => exact (h.isFieldText_of_fieldText? htext).clean?_eq

theorem IsListable.exists_comparison (h : c.IsListable) (haction : c.action ≠ .delete) :
    ∃ op v, c.operator? = some op ∧ c.value? = some v := by
  obtain ⟨hop, hv⟩ := h.comparison haction
  obtain ⟨op, hop⟩ := Option.isSome_iff_exists.mp hop
  obtain ⟨v, hv⟩ := Option.isSome_iff_exists.mp hv
  exact ⟨op, v, hop, hv⟩

/-- A block is read as the constraint that was written. -/
theorem ofBlock?_of_fieldTexts (h : c.IsListable) (origin : Origin) {block : List Char}
    (hblock : fieldTexts block = c.fields.map fun x => (x.1, x.2.toList)) :
    ofBlock? origin block = some { c with origin } := by
  have hempty : c.path.toList.isEmpty = false := by simpa using h.path.ne_nil
  have hpath : Text.trimChars (Text.dropWhileEnd (· = '.') c.path.toList) = c.path.toList := by
    have hdots : Text.dropWhileEnd (· = '.') c.path.toList = c.path.toList := by
      refine List.rdropWhile_eq_self_iff.mpr fun hne => ?_
      have hlast := h.path_end
      rw [List.getLast?_eq_getLast_of_ne_nil hne] at hlast
      simpa using hlast
    rw [hdots, h.path.trimChars_eq]
  have haction : Action.ofText c.action.name.toList = c.action := by
    cases c.action <;> decide
  have hsign : saysYes c.signWord.toList = c.isNegative := by
    rw [signWord]
    cases c.isNegative <;> decide
  have htext (text? : Option String) : (text?.map String.toList).map String.ofList = text? := by
    cases text? <;> simp
  have hvalue : (c.value?.map String.toList).map (fun v => String.ofList (valueLine v))
      = c.value? := by
    cases hv : c.value? with
    | none => rfl
    | some text => simp [(h.value text hv).valueLine_eq]
  simp only [ofBlock?, h.lookup_fieldTexts hblock, fieldText?, Option.map_some,
    Option.bind_eq_bind, Option.bind_some, haction, hpath, hsign, Option.getD_some, hempty, htext,
    hvalue, String.ofList_toList, Bool.false_eq_true, if_false]
  -- what the action asks of the other fields is there
  cases haction' : c.action with
  | delete => simp [← haction', h.value_of haction']
  | edit =>
    obtain ⟨op, v, hop, hv⟩ := h.exists_comparison (by simp [haction'])
    simp [hop, hv]
  | add =>
    obtain ⟨op, v, hop, hv⟩ := h.exists_comparison (by simp [haction'])
    have hformer : c.former? = none := by
      rw [← Option.not_isSome_iff_eq_none]
      exact fun hformer => h.former_of hformer haction'
    simp [hop, hv, hformer]

theorem ofBlock?_block (h : c.IsListable) (origin : Origin) :
    ofBlock? origin c.block = some { c with origin } :=
  ofBlock?_of_fieldTexts h origin (fieldTexts_newLines h.isFieldText)

theorem ofBlock?_block_break (h : c.IsListable) (origin : Origin) :
    ofBlock? origin (c.block ++ ['\n']) = some { c with origin } :=
  ofBlock?_of_fieldTexts h origin (fieldTexts_newLines_break h.isFieldText)

end Reading

/-! ### Headers in lists -/

theorem toList_headerLine (number : ℕ) :
    (headerLine number).toList
      = "Constraint".toList ++ ([' '] ++ (Nat.toDigits 10 number ++ ([] ++ [':']))) := by
  unfold headerLine
  simp only [String.toList_append, Nat.toString_eq_repr, Nat.toList_repr, List.append_assoc]
  rfl

theorem headerLine_mem (number : ℕ) : (headerLine number).toList ∈ headers := by
  have hdigits : Nat.toDigits 10 number ∈ Text.atLeastOne Text.isDecimalDigit := by
    refine ⟨Nat.toDigits_ne_nil, fun d hd => ?_⟩
    have hdigit := Nat.isDigit_of_mem_toDigits (by decide) (by decide) hd
    rw [Char.isDigit_iff_toNat] at hdigit
    have h₀ : '0'.toNat = 48 := rfl
    have h₉ : '9'.toNat = 57 := rfl
    refine List.any_eq_true.mpr ⟨⟨0x30, 0x39⟩, List.mem_cons_self .., ?_⟩
    simp only [Text.CodeRange.holds, Bool.and_eq_true, decide_eq_true_eq]
    omega
  rw [toList_headerLine]
  refine Language.append_mem_mul (Text.mem_caseless.mpr (by decide))
    (Language.append_mem_mul ?_ (Language.append_mem_mul hdigits (Language.append_mem_mul ?_ rfl)))
  · exact ⟨List.cons_ne_nil _ _, List.forall_mem_singleton.mpr (by decide)⟩
  · exact List.forall_mem_nil _

/-- The sign is on the last line of a block. -/
theorem block_concat (c : Constraint) : ∃ front, (∀ x ∈ front, x ∈ c.fields)
    ∧ c.block
      = newLines (fieldLines front) ++ '\n' :: (Field.isNegative.item c.signWord).toList := by
  obtain ⟨front, hfront⟩ := c.fields_concat
  refine ⟨front, fun x hx => ?_, ?_⟩
  · rw [hfront]
    exact List.mem_append_left _ hx
  · simp [block, hfront, newLines, fieldLines]

theorem IsListable.avoids_header_block {c : Constraint} (h : c.IsListable) (rest : List Char) :
    header.Avoids c.block rest := by
  obtain ⟨front, hmem, hblock⟩ := c.block_concat
  rw [hblock]
  refine .append ?_ (avoids_header_of_all ?_ rest)
  · rw [Field.toList_item]
    exact avoids_header_fieldLines (fun x hx => h.isFieldText x (hmem x hx)) _
  · rw [signWord]
    cases c.isNegative <;> decide

/-! ### The text of a list -/

theorem IsListable.not_mem_block {c : Constraint} (h : c.IsListable) : '[' ∉ c.block := by
  intro hmem
  obtain ⟨line, hline, hmem⟩ := List.mem_flatMap.mp hmem
  obtain ⟨x, hx, rfl⟩ := List.mem_map.mp hline
  rcases List.mem_cons.mp hmem with hbreak | hmem
  · cases hbreak
  · exact not_mem_item x.1 (by decide) (h.isFieldText x hx).bracket hmem

/-- Constraints with their headers, from a number on, each of them on new lines. -/
def entries : ℕ → List Constraint → List Char
  | _, [] => []
  | number, c :: cs =>
    '\n' :: ((headerLine number).toList ++ (c.block ++ entries (number + 1) cs))

theorem newLines_append (lines lines' : List String) :
    newLines (lines ++ lines') = newLines lines ++ newLines lines' :=
  List.flatMap_append

theorem newLines_lines (c : Constraint) (number : ℕ) :
    newLines (c.lines number) = '\n' :: ((headerLine number).toList ++ c.block) := by
  rw [lines, newLines, List.flatMap_cons, block, newLines, List.cons_append]

theorem newLines_flatMap_lines (cs : List Constraint) (number : ℕ) :
    newLines ((cs.zipIdx number).flatMap fun x => x.1.lines x.2) = entries number cs := by
  induction cs generalizing number with
  | nil => rfl
  | cons c cs ih =>
    rw [entries, ← ih, List.zipIdx_cons, List.flatMap_cons, newLines_append, newLines_lines,
      List.cons_append, List.append_assoc]

theorem toList_layout (cs : List Constraint) :
    (layout cs).toList
      = "[CONSTRAINTS]".toList ++ (entries 1 cs ++ '\n' :: "[/CONSTRAINTS]".toList) := by
  rw [layout, Text.joinWith, String.toList_intercalate, List.append_assoc, List.singleton_append,
    List.map_cons]
  show ['\n'].intercalate _ = _
  rw [intercalate_cons_eq_newLines, newLines_append, newLines_flatMap_lines]
  rfl

theorem not_mem_entries {cs : List Constraint} (h : ∀ c ∈ cs, c.IsListable) (number : ℕ) :
    '[' ∉ entries number cs := by
  induction cs generalizing number with
  | nil => exact List.not_mem_nil
  | cons c cs ih =>
    rw [List.forall_mem_cons] at h
    have hheader : '[' ∉ (headerLine number).toList := by
      have hdigits : '[' ∉ Nat.toDigits 10 number := fun hmem =>
        absurd (Nat.isDigit_of_mem_toDigits (by decide) (by decide) hmem) (by decide)
      rw [toList_headerLine]
      simp [hdigits]
    simp [entries, hheader, h.1.not_mem_block, ih h.2]

/-! ### Reading a list -/

section Extraction

variable {c : Constraint} {cs : List Constraint}

/-- The blocks between headers, behind the first of these, are those that were written. -/
theorem filterMap_splitAround_header (origin : Origin) (hc : c.IsListable)
    (hcs : ∀ c ∈ cs, c.IsListable) (number : ℕ) :
    (Text.splitAround header (c.block ++ entries number cs)).filterMap (ofBlock? origin)
      = (c :: cs).map fun c => { c with origin } := by
  induction cs generalizing c number with
  | nil =>
    rw [entries, List.append_nil, Text.splitAround_of_avoids (hc.avoids_header_block []),
      List.filterMap_cons_some (ofBlock?_block hc origin)]
    rfl
  | cons d cs ih =>
    rw [List.forall_mem_cons] at hcs
    -- the line feed in front of the next header belongs to the block in hand
    have hbreak : c.block ++ entries number (d :: cs)
        = (c.block ++ ['\n'])
          ++ ((headerLine number).toList ++ (d.block ++ entries (number + 1) cs)) := by
      simp [entries]
    have hfree : header.Avoids (c.block ++ ['\n'])
        ((headerLine number).toList ++ (d.block ++ entries (number + 1) cs)) :=
      .append (hc.avoids_header_block _) (avoids_header_of_all (by decide) _)
    rw [hbreak, Text.splitAround_append hfree
        (recognizes_header.eq_some (headerLine_mem number) _)
        (ne_nil_of_mem_headers (headerLine_mem number)),
      List.filterMap_cons_some (ofBlock?_block_break hc origin), ih hcs.1 hcs.2]
    rfl

/-- The text of entries ends with the word for a sign. -/
theorem exists_getLast?_entries (number : ℕ) :
    ∃ x, (c.block ++ entries number cs).getLast? = some x ∧ Text.isBlank x = false := by
  induction cs generalizing c number with
  | nil =>
    obtain ⟨front, -, hblock⟩ := c.block_concat
    obtain ⟨x, hx, hblank⟩ : ∃ x, ('\n' :: (Field.isNegative.item c.signWord).toList).getLast?
        = some x ∧ Text.isBlank x = false := by
      rw [signWord]
      cases c.isNegative
      · exact ⟨'o', by decide, by decide⟩
      · exact ⟨'s', by decide, by decide⟩
    refine ⟨x, ?_, hblank⟩
    rw [entries, List.append_nil, hblock, List.getLast?_append, hx]
    rfl
  | cons d cs ih =>
    obtain ⟨x, hx, hblank⟩ := ih (c := d) (number + 1)
    refine ⟨x, ?_, hblank⟩
    rw [entries, List.getLast?_append, List.getLast?_cons, List.getLast?_append, hx]
    rfl

/-- No opening tag begins in a text that has none, also in front of one. -/
theorem avoids_openingTag {before : List Char}
    (h : ∀ m ∈ Text.caseless "[constraints]".toList, ¬ m <:+: before) (rest : List Char) :
    (Text.word "[constraints]".toList).Avoids before ('[' :: rest) := by
  refine .of_recognizes (Text.recognizes_word _) h ?_
  -- the bracket at the front of the rest would be one inside the tag
  intro u v hv hprefix hu hmem
  obtain ⟨x, u, rfl⟩ := List.exists_cons_of_ne_nil hu
  obtain ⟨y, v, rfl⟩ := List.exists_cons_of_ne_nil hv
  obtain ⟨rfl, -⟩ := List.cons_prefix_cons.mp hprefix
  rw [Text.mem_caseless, List.cons_append, List.map_cons] at hmem
  have htail : (u ++ '[' :: v).map Text.foldCase = "constraints]".toList := (List.cons.inj hmem).2
  have hbracket : '[' ∈ (u ++ '[' :: v).map Text.foldCase := by
    simp only [List.map_append, List.map_cons, List.mem_append, List.mem_cons]
    exact .inr (.inl rfl)
  rw [htail] at hbracket
  revert hbracket
  decide

/-- No closing tag begins in a text without a bracket that opens. -/
theorem avoids_closingTag {cs : List Char} (h : '[' ∉ cs) (rest : List Char) :
    (Text.word "[/constraints]".toList).Avoids cs rest := by
  refine .of_forall fun c hc ds => if_neg fun hfold => ?_
  rcases Text.foldCase_cases c with hself | ⟨-, hletter⟩
  · rw [← hself, hfold] at hc
    exact h hc
  · rw [hfold] at hletter
    revert hletter
    decide

/-- The constraints in a text around a list are looked for between its first and its last line. -/
theorem constraintsPart_layout (h : ∀ c ∈ cs, c.IsListable) {before : List Char}
    (hbefore : ∀ m ∈ Text.caseless "[constraints]".toList, ¬ m <:+: before)
    (after : List Char) :
    constraintsPart (before ++ ((layout cs).toList ++ after))
      = Text.trimChars (entries 1 cs ++ ['\n']) := by
  have htext : (layout cs).toList ++ after = "[CONSTRAINTS]".toList
      ++ ((entries 1 cs ++ ['\n']) ++ ("[/CONSTRAINTS]".toList ++ after)) := by
    rw [toList_layout]
    simp
  have hopen : Text.firstMatch? (Text.word "[constraints]".toList)
      (before ++ ((layout cs).toList ++ after))
        = some (before, (entries 1 cs ++ ['\n']) ++ ("[/CONSTRAINTS]".toList ++ after)) := by
    rw [htext]
    exact Text.firstMatch?_append (avoids_openingTag hbefore _)
      ((Text.recognizes_word _).eq_some (Text.mem_caseless.mpr (by decide)) _)
  have hclose : Text.firstMatch? (Text.word "[/constraints]".toList)
      ((entries 1 cs ++ ['\n']) ++ ("[/CONSTRAINTS]".toList ++ after))
        = some (entries 1 cs ++ ['\n'], after) := by
    refine Text.firstMatch?_append (avoids_closingTag ?_ _)
      ((Text.recognizes_word _).eq_some (Text.mem_caseless.mpr (by decide)) after)
    rw [List.mem_append, not_or]
    exact ⟨not_mem_entries h 1, by decide⟩
  rw [constraintsPart, hopen]
  simp only [Option.bind_eq_bind, Option.bind_some, hclose, Option.getD_some]

/-- The first entry of a list begins the text in which blocks are looked for. -/
theorem trimChars_entries (number : ℕ) :
    Text.trimChars (entries number (c :: cs) ++ ['\n'])
      = (headerLine number).toList ++ (c.block ++ entries (number + 1) cs) := by
  obtain ⟨x, hx, hblank⟩ : ∃ x, (c.block ++ entries (number + 1) cs).getLast? = some x
      ∧ Text.isBlank x = false := exists_getLast?_entries (number + 1)
  rw [entries, List.cons_append, Text.trimChars_cons (by decide), Text.trimChars_concat (by decide)]
  refine Text.trimChars_eq_self ?_ ?_
  · intro y hy
    rw [toList_headerLine] at hy
    obtain rfl : 'C' = y := Option.some.inj hy
    decide
  · intro y hy
    rw [List.getLast?_append, hx] at hy
    obtain rfl : x = y := Option.some.inj hy
    exact hblank

end Extraction

end Constraint

/-- A text that begins with a header is cut at its headers. -/
theorem blocks_append {m : List Char} (hm : m ∈ headers) (rest : List Char) :
    blocks (m ++ rest) = [] :: Text.splitAround header rest := by
  have hsplit : Text.splitAround header (m ++ rest) = [] :: Text.splitAround header rest :=
    Text.splitAround_append .nil (recognizes_header.eq_some hm rest) (ne_nil_of_mem_headers hm)
  rw [blocks, hsplit, if_pos]
  rw [List.length_cons, Nat.lt_add_left_iff_pos, List.length_pos_iff]
  exact Text.splitAround_ne_nil header rest

open Constraint in
/-- What is read of a text around a list of constraints are the constraints, with the origin that
is asked for, if repetitions are kept. -/
theorem extract_layout {settings : Settings} (hsettings : settings.dedupeConstraints = false)
    (origin : Origin) {before : String}
    (hbefore : ∀ m ∈ Text.caseless "[constraints]".toList, ¬ m <:+: before.toList)
    {cs : List Constraint} (hcs : ∀ c ∈ cs, c.IsListable) (after : String) :
    extract settings origin (before ++ layout cs ++ after) = cs.map fun c => { c with origin } := by
  have htext : (before ++ layout cs ++ after).toList
      = before.toList ++ ((layout cs).toList ++ after.toList) := by
    rw [String.toList_append, String.toList_append, List.append_assoc]
  rw [extract, hsettings, htext, constraintsPart_layout hcs hbefore]
  cases cs with
  | nil =>
    have hblocks : blocks (Text.trimChars (entries 1 [] ++ ['\n'])) = [] := by decide
    rw [hblocks]
    rfl
  | cons c cs =>
    rw [List.forall_mem_cons] at hcs
    -- nothing stands in front of the first header
    have hnone : ofBlock? origin [] = none := rfl
    rw [trimChars_entries, blocks_append (headerLine_mem 1), if_neg Bool.false_ne_true,
      List.filterMap_cons_none hnone, filterMap_splitAround_header origin hcs.1 hcs.2]

open Constraint in
/-- Texts that look like fields, items and headers, a deletion with its path alone, and tags around
the list. -/
theorem extract_layout_lookalikes :
    let settings : Settings := { dedupeConstraints := false }
    let before := "Constraint 9:\n- Type: add\n[/CONSTRAINTS] [CONSTRAINTS\n"
    let after := "\n[CONSTRAINTS]\nConstraint 1:\n- Type: del\n- Path: fc.c\n[/CONSTRAINTS]"
    let edit : Constraint :=
      { path := "- fc.name", operator? := some ": ==", value? := some "Path: ; Constraint 1",
        action := .edit, former? := some "Type", isNegative := true }
    let drop : Constraint := { path := "Constraint", action := .delete }
    let cs := [edit, drop, edit]
    (∀ c ∈ cs, c.IsListable)
      ∧ layout cs = "[CONSTRAINTS]\nConstraint 1:\n- Type: edit\n- Path: - fc.name\n"
        ++ "- Operator: : ==\n- Value: Path: ; Constraint 1\n- Original Value: Type\n"
        ++ "- Is Negative: yes\nConstraint 2:\n- Type: del\n- Path: Constraint\n"
        ++ "- Is Negative: no\nConstraint 3:\n- Type: edit\n- Path: - fc.name\n"
        ++ "- Operator: : ==\n- Value: Path: ; Constraint 1\n- Original Value: Type\n"
        ++ "- Is Negative: yes\n[/CONSTRAINTS]"
      ∧ extract settings .fixed (before ++ layout cs ++ after)
        = cs.map fun c => { c with origin := .fixed } := by
  intro settings before after edit drop cs
  have hbefore : ∀ m ∈ Text.caseless "[constraints]".toList, ¬ m <:+: before.toList :=
    (Text.recognizes_word _).firstMatch?_eq_none_iff.mp (by decide +kernel)
  have hcs : ∀ c ∈ cs, c.IsListable := by decide +kernel
  exact ⟨hcs, by decide +kernel, extract_layout rfl .fixed hbefore hcs after⟩

end NodeQuery
