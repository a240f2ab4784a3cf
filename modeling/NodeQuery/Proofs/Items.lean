/-
Fields as items of a list, and reading them back.

A field stands on a line of its own, behind a dash. The line is found to have the field that was
written on it, and the lines of a block are found where its line feeds are, so a block of such
lines has the fields that were written. No header begins in it as long as one more field follows.

* `Field.item`, `fieldLines`, `newLines`: fields as lines.
* `fieldLine?_item`: the field on a line.
* `fieldTexts_newLines`, `fieldTexts_newLines_break`: the fields on the lines of a block.
* `avoids_header_fieldLines`: no header begins in the lines of fields.
-/
import NodeQuery.Proofs.FieldTexts

namespace NodeQuery

/-! ### Fields on lines -/

namespace Field

/-- The name of a field, as it is written in a list. -/
def title : Field → String
  | type => "Type"
  | path => "Path"
  | operator => "Operator"
  | formerValue => "Original Value"
  | value => "Value"
  | isNegative => "Is Negative"

/-- A field with its text, as an item of a list. -/
def item (f : Field) (text : String) : String :=
  "- " ++ f.title ++ ": " ++ text

/-- The fields in the order of a list. -/
def inOrder : List Field :=
  [type, path, operator, value, formerValue, isNegative]

theorem toList_item (f : Field) (text : String) :
    (f.item text).toList = "- ".toList ++ (f.title.toList ++ (": ".toList ++ text.toList)) := by
  simp [item]

theorem nameIn?_title (f : Field) (rest : List Char) :
    nameIn? all (f.title.toList ++ rest) = some (f.title.toList, rest) := by
  have hfind : (all.findSome? fun g => Text.words g.words (f.title.toList ++ rest))
      = some rest := by
    cases f <;> rfl
  simp [nameIn?, hfind]

theorem ofName_title (f : Field) : ofName f.title.toList = f := by
  cases f <;> decide

end Field

theorem fieldLine?_item (f : Field) {text : String}
    (h : ∀ c ∈ text.toList.head?, Text.isBlank c = false) :
    fieldLine? (f.item text).toList = some (f, text.toList) := by
  have hdash : withoutDash (f.item text).toList
      = f.title.toList ++ (": ".toList ++ text.toList) := by
    rw [Field.toList_item]
    cases f <;> rfl
  have htext : text.toList.dropWhile Text.isBlank = text.toList := by
    cases hcs : text.toList with
    | nil => rfl
    | cons c cs =>
      rw [hcs] at h
      exact List.dropWhile_cons_of_neg (by simp [h c rfl])
  rw [fieldLine?, hdash, Field.nameIn?_title]
  show some (Field.ofName f.title.toList, text.toList.dropWhile Text.isBlank) = _
  rw [Field.ofName_title, htext]

/-! ### Lines -/

/-- Lines, each of them behind a line feed. -/
def newLines (lines : List String) : List Char :=
  lines.flatMap fun line => '\n' :: line.toList

theorem intercalate_cons_eq_newLines (cs : List Char) (lines : List String) :
    ['\n'].intercalate (cs :: lines.map String.toList) = cs ++ newLines lines := by
  induction lines generalizing cs with
  | nil => simp [newLines]
  | cons line lines ih =>
    rw [List.map_cons, List.intercalate_cons_cons, ih]
    simp [newLines]

theorem segments_newLines {lines : List String} (h : ∀ line ∈ lines, '\n' ∉ line.toList) :
    Text.segments '\n' (newLines lines) = [] :: lines.map String.toList := by
  rw [← List.nil_append (newLines lines), ← intercalate_cons_eq_newLines]
  refine Text.segments_intercalate ?_ (List.cons_ne_nil _ _)
  simpa using h

namespace Text

theorem dropReturn_of_not_mem {line : List Char} (h : '\r' ∉ line) : dropReturn line = line :=
  if_neg fun hlast => h (List.mem_of_getLast? hlast)

/-- The last line need not end with a line feed, and nothing behind one is no line. -/
theorem linesOfPieces_concat {lines : List (List Char)} (h : ∀ line ∈ lines, '\r' ∉ line)
    (last : List Char) :
    linesOfPieces (lines ++ [last]) = lines ++ if last.isEmpty then [] else [last] := by
  induction lines with
  | nil => rfl
  | cons line lines ih =>
    rw [List.forall_mem_cons] at h
    -- more pieces follow, so this one is ended by a line feed
    have hstep : linesOfPieces (line :: (lines ++ [last]))
        = dropReturn line :: linesOfPieces (lines ++ [last]) := by
      cases lines <;> rfl
    rw [List.cons_append, hstep, dropReturn_of_not_mem h.1, ih h.2, List.cons_append]

end Text

theorem lines_newLines {lines : List String}
    (h : ∀ line ∈ lines, '\n' ∉ line.toList ∧ '\r' ∉ line.toList) {last : String}
    (hlast : '\n' ∉ last.toList) :
    Text.lines (newLines (lines ++ [last]))
      = [] :: (lines.map String.toList ++ if last.toList.isEmpty then [] else [last.toList]) := by
  have hpieces : Text.segments '\n' (newLines (lines ++ [last]))
      = ([] :: lines.map String.toList) ++ [last.toList] := by
    rw [segments_newLines, List.map_append, List.cons_append, List.map_singleton]
    intro line hline
    rcases List.mem_append.mp hline with hline | hline
    · exact (h line hline).1
    · rwa [List.mem_singleton.mp hline]
  rw [Text.lines, hpieces, Text.linesOfPieces_concat, List.cons_append]
  simpa using fun line hline => (h line hline).2

/-! ### Fields of blocks -/

/-- The lines of a list that hold fields. -/
def fieldLines (fields : List (Field × String)) : List String :=
  fields.map fun x => x.1.item x.2

section FieldLines

variable {fields : List (Field × String)}

/-- Around its text, an item has letters, dashes, spaces and colons only. -/
theorem not_mem_item (f : Field) {c : Char} (hc : c.isAlpha = false ∧ c ∉ "- :".toList)
    {text : String} (htext : c ∉ text.toList) : c ∉ (f.item text).toList := by
  have hall : ("- ".toList ++ (f.title.toList ++ ": ".toList)).all
      (fun d => d.isAlpha || "- :".toList.contains d) = true := by
    cases f <;> decide
  have htitle : c ∉ "- ".toList ++ (f.title.toList ++ ": ".toList) := by
    intro hmem
    have hof := List.all_eq_true.mp hall c hmem
    rw [hc.1, Bool.false_or, List.contains_iff_mem] at hof
    exact hc.2 hof
  rw [Field.toList_item, ← List.append_assoc, ← List.append_assoc, List.append_assoc "- ".toList,
    List.mem_append, not_or]
  exact ⟨htitle, htext⟩

theorem not_mem_fieldLines (h : ∀ x ∈ fields, IsFieldText x.2.toList) :
    ∀ line ∈ fieldLines fields, '\n' ∉ line.toList ∧ '\r' ∉ line.toList := by
  intro line hline
  obtain ⟨x, hx, rfl⟩ := List.mem_map.mp hline
  exact ⟨not_mem_item x.1 (by decide) ((h x hx).not_mem (by decide) (by decide)),
    not_mem_item x.1 (by decide) ((h x hx).not_mem (by decide) (by decide))⟩

theorem fieldsOfLines_fieldLines (h : ∀ x ∈ fields, IsFieldText x.2.toList) :
    fieldsOfLines ((fieldLines fields).map String.toList)
      = ([], fields.map fun x => (x.1, x.2.toList)) := by
  induction fields with
  | nil => rfl
  | cons x fields ih =>
    rw [List.forall_mem_cons] at h
    have hline := fieldLine?_item x.1 h.1.head
    have ih := ih h.2
    simp only [fieldLines, List.map_cons, fieldsOfLines] at ih ⊢
    rw [ih, hline]
    simp

/-- The fields on the lines of a block, if each of the lines is behind a line feed. -/
theorem fieldTexts_of_lines {block : List Char} (h : ∀ x ∈ fields, IsFieldText x.2.toList)
    (hlines : Text.lines block = [] :: (fieldLines fields).map String.toList) :
    fieldTexts block = fields.map fun x => (x.1, x.2.toList) := by
  rw [fieldTexts, hlines, fieldsOfLines, fieldsOfLines_fieldLines h]
  rfl

theorem fieldTexts_newLines (h : ∀ x ∈ fields, IsFieldText x.2.toList) :
    fieldTexts (newLines (fieldLines fields)) = fields.map fun x => (x.1, x.2.toList) := by
  rcases List.eq_nil_or_concat' fields with rfl | ⟨front, x, rfl⟩
  · rfl
  · refine fieldTexts_of_lines h ?_
    have hconcat : fieldLines (front ++ [x]) = fieldLines front ++ [x.1.item x.2] := by
      simp [fieldLines]
    have hne : (x.1.item x.2).toList.isEmpty = false := by
      rw [Field.toList_item]
      rfl
    have hx : '\n' ∉ (x.1.item x.2).toList :=
      not_mem_item x.1 (by decide) ((h x (by simp)).not_mem (by decide) (by decide))
    have hfront := not_mem_fieldLines fun y hy => h y (List.mem_append_left [x] hy)
    rw [hconcat, lines_newLines hfront hx, hne]
    simp

theorem fieldTexts_newLines_break (h : ∀ x ∈ fields, IsFieldText x.2.toList) :
    fieldTexts (newLines (fieldLines fields) ++ ['\n'])
      = fields.map fun x => (x.1, x.2.toList) := by
  refine fieldTexts_of_lines h ?_
  have hblock : newLines (fieldLines fields) ++ ['\n'] = newLines (fieldLines fields ++ [""]) := by
    simp [newLines]
  rw [hblock, lines_newLines (not_mem_fieldLines h) (by decide)]
  simp

end FieldLines

/-! ### Headers and the lines of fields -/

theorem avoids_header_item (f : Field) {text : String} (h : IsFieldText text.toList)
    (rest : List Char) :
    header.Avoids ('\n' :: (f.item text).toList) ('\n' :: '-' :: rest) := by
  have hitem : '\n' :: (f.item text).toList
      = ('\n' :: "- ".toList ++ (f.title.toList ++ ": ".toList)) ++ text.toList := by
    rw [Field.toList_item]
    simp
  rw [hitem]
  refine .append (avoids_header_of_all ?_ _) (h.avoids_header rest)
  cases f <;> decide

/-- No header begins in the lines of fields, if one more field is on the line behind them. -/
theorem avoids_header_fieldLines {fields : List (Field × String)}
    (h : ∀ x ∈ fields, IsFieldText x.2.toList) (rest : List Char) :
    header.Avoids (newLines (fieldLines fields)) ('\n' :: '-' :: rest) := by
  induction fields with
  | nil => exact .nil
  | cons x fields ih =>
    rw [List.forall_mem_cons] at h
    -- behind this line stands an item in any case
    obtain ⟨rest', hrest⟩ : ∃ rest', newLines (fieldLines fields) ++ '\n' :: '-' :: rest
        = '\n' :: '-' :: rest' := by
      cases fields with
      | nil => exact ⟨rest, rfl⟩
      | cons y fields => exact ⟨_, by simp [newLines, fieldLines, Field.item]; rfl⟩
    have hitem := avoids_header_item x.1 h.1 rest'
    rw [← hrest] at hitem
    exact hitem.append (ih h.2)

end NodeQuery
