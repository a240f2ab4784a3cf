/-
Paths and the attributes that they name.

Deletions and edits find their leaves by the texts of paths, and additions build attributes from
them, so the two had better agree. Cutting a text at its dots and joining segments with dots undo
each other as long as no segment has a dot in it. An attribute takes part in this if its names are
not empty and have no dots, and a path if it has no empty segment, that is, if dots are neither at
its ends nor next to each other.

* `Text.segments_intercalate`, `Text.joinWith_segments`: segments that are joined, and the segments
  of a text.
* `Text.HasEmptySegment`, `Text.nil_mem_segments_iff`: texts with an empty segment.
* `Attribute.IsDotless`: attributes of which the names can stand between dots.
* `Attribute.path_of_ofPath?`, `Attribute.ofPath?_path`: from a path to an attribute and back.
* `Attribute.ofPath?_inverts_path`: which attribute a path names, and which paths name none.
-/
import Mathlib.Tactic.Common
import NodeQuery.Query

namespace NodeQuery

/-! ### Segments -/

namespace Text

theorem segments_eq_splitOn (sep : Char) (cs : List Char) : segments sep cs = cs.splitOn sep := by
  induction cs with
  | nil => rfl
  | cons c cs ih =>
    rw [List.splitOn_cons_eq_if_modifyHead, segments, ih]
    obtain ⟨piece, rest, hsplit⟩ := List.exists_cons_of_ne_nil (List.splitOn_ne_nil sep cs)
    rw [hsplit]
    simp

/-- Segments that have no separator in them are those of the text that they are joined to. -/
theorem segments_intercalate {sep : Char} {pieces : List (List Char)}
    (h : ∀ piece ∈ pieces, sep ∉ piece) (hne : pieces ≠ []) :
    segments sep ([sep].intercalate pieces) = pieces := by
  rw [segments_eq_splitOn]
  exact List.splitOn_intercalate sep h hne

theorem segments_of_not_mem {sep : Char} {cs : List Char} (h : sep ∉ cs) :
    segments sep cs = [cs] := by
  have hjoin := @segments_intercalate sep [cs] (List.forall_mem_singleton.mpr h) (by simp)
  rwa [List.intercalate_singleton] at hjoin

/-- The segments of a text, joined again, are the text. -/
theorem joinWith_segments (cs : List Char) :
    (joinWith "." ((segments '.' cs).map String.ofList)).toList = cs := by
  have htexts : ((segments '.' cs).map String.ofList).map String.toList = cs.splitOn '.' := by
    rw [segments_eq_splitOn, List.map_map]
    exact (List.map_congr_left fun piece _ => String.toList_ofList).trans (List.map_id _)
  rw [joinWith, String.toList_intercalate, htexts]
  exact List.intercalate_splitOn '.'

/-- The text, or what stands in it behind a separator, is empty or begins with a separator, so that
nothing stands in front of the next separator or the end. -/
def HasEmptySegment (sep : Char) (cs : List Char) : Prop :=
  ∃ rest, (rest = cs ∨ sep :: rest <:+ cs) ∧ (rest = [] ∨ rest.head? = some sep)

section Segments

variable {sep c : Char} {cs piece : List Char}

theorem segments_cons_sep : segments sep (sep :: cs) = [] :: segments sep cs := by
  rw [segments_eq_splitOn, segments_eq_splitOn, List.splitOn_cons_eq_if_modifyHead,
    if_pos (by simp)]

/-- A character that is no separator belongs to the first segment. -/
theorem exists_segments_cons (hc : c ≠ sep) : ∃ first rest,
    segments sep cs = first :: rest ∧ segments sep (c :: cs) = (c :: first) :: rest := by
  rw [segments_eq_splitOn, segments_eq_splitOn, List.splitOn_cons_eq_if_modifyHead,
    if_neg (by simpa using hc)]
  obtain ⟨first, rest, hsplit⟩ := List.exists_cons_of_ne_nil (List.splitOn_ne_nil sep cs)
  exact ⟨first, rest, hsplit, by rw [hsplit]; rfl⟩

theorem not_mem_of_mem_segments (h : piece ∈ segments sep cs) : sep ∉ piece := by
  induction cs generalizing piece with
  | nil =>
    rw [List.mem_singleton.mp h]
    exact List.not_mem_nil
  | cons c cs ih =>
    by_cases hc : c = sep
    · subst hc
      rw [segments_cons_sep] at h
      rcases List.mem_cons.mp h with rfl | h
      · exact List.not_mem_nil
      · exact ih h
    · obtain ⟨first, rest, hcs, hcons⟩ := @exists_segments_cons sep c cs hc
      rw [hcs] at ih
      rw [hcons] at h
      rcases List.mem_cons.mp h with rfl | h
      · exact List.not_mem_cons_of_ne_of_not_mem (Ne.symm hc) (ih (List.mem_cons_self ..))
      · exact ih (List.mem_cons_of_mem _ h)

/-- The first segment is empty if a separator comes first or nothing, and a later one if so it is
behind a separator. -/
theorem exists_segments_eq (sep : Char) (cs : List Char) : ∃ first more,
    segments sep cs = first :: more
      ∧ (first = [] ↔ cs = [] ∨ cs.head? = some sep)
      ∧ ([] ∈ more ↔ ∃ rest, sep :: rest <:+ cs ∧ (rest = [] ∨ rest.head? = some sep)) := by
  induction cs with
  | nil => exact ⟨[], [], rfl, by simp, by simp⟩
  | cons c cs ih =>
    obtain ⟨first, more, hcs, hfirst, hmore⟩ := ih
    by_cases hc : c = sep
    · subst hc
      refine ⟨[], first :: more, by rw [segments_cons_sep, hcs], by simp, ?_⟩
      simp only [List.mem_cons, eq_comm (a := []), hfirst, hmore, List.suffix_cons_iff,
        List.cons.injEq, true_and, or_and_right, exists_or, exists_eq_left]
    · obtain ⟨first', more', hcs', hcons⟩ := @exists_segments_cons sep c cs hc
      obtain ⟨rfl, rfl⟩ := List.cons.inj (hcs.symm.trans hcs')
      refine ⟨c :: first, more, hcons, by simp [hc], ?_⟩
      simp only [hmore, List.suffix_cons_iff, List.cons.injEq, Ne.symm hc, false_and, false_or]

theorem nil_mem_segments_iff : [] ∈ segments sep cs ↔ HasEmptySegment sep cs := by
  obtain ⟨first, more, hcs, hfirst, hmore⟩ := exists_segments_eq sep cs
  simp only [hcs, HasEmptySegment, List.mem_cons, eq_comm (a := []), hfirst, hmore, or_and_right,
    exists_or, exists_eq_left]

end Segments

end Text

/-! ### Attributes -/

namespace Attribute

/-- The names can stand between dots: they are not empty, and have no dots in them. -/
def IsDotless (a : Attribute) : Prop :=
  ∀ name ∈ a.name :: a.properties, name ≠ "" ∧ '.' ∉ name.toList

variable {path : String} {a : Attribute}

/-- The names of the attribute are the segments of its path, and of no other text. -/
theorem ofPath?_eq_some_iff : ofPath? path = some a
    ↔ Text.segments '.' path.toList = (a.name :: a.properties).map String.toList
      ∧ ∀ name ∈ a.name :: a.properties, name ≠ "" := by
  constructor
  · intro h
    unfold ofPath? at h
    simp only at h
    split_ifs at h with hany
    split at h
    · cases h
    · rename_i name properties hsegments
      cases h
      rw [hsegments, Bool.not_eq_true, List.any_eq_false] at hany
      refine ⟨by simp [hsegments, Function.comp_def], ?_⟩
      show ∀ s ∈ (name :: properties).map String.ofList, s ≠ ""
      rw [List.forall_mem_map]
      intro piece hpiece hempty
      refine hany piece hpiece ?_
      rw [← @String.toList_ofList piece, hempty]
      rfl
  · rintro ⟨hsegments, hne⟩
    have hany : ((a.name :: a.properties).map String.toList).any List.isEmpty = false := by
      rw [List.any_eq_false, List.forall_mem_map]
      simpa using hne
    unfold ofPath?
    simp only [hsegments, hany]
    simp [Function.comp_def]

theorem ofPath?_eq_none_iff : ofPath? path = none ↔ Text.HasEmptySegment '.' path.toList := by
  rw [← Text.nil_mem_segments_iff]
  unfold ofPath?
  obtain ⟨first, more, hsegments, -⟩ := Text.exists_segments_eq '.' path.toList
  simp [hsegments, or_iff_not_imp_left]

/-- The attribute that a path names has that path. -/
theorem path_of_ofPath? (h : ofPath? path = some a) : a.path = path := by
  have hjoin := Text.joinWith_segments path.toList
  rw [(ofPath?_eq_some_iff.mp h).1] at hjoin
  rw [← String.toList_inj]
  simpa [Attribute.path, Function.comp_def] using hjoin

theorem isDotless_of_ofPath? (h : ofPath? path = some a) : a.IsDotless := by
  obtain ⟨hsegments, hne⟩ := ofPath?_eq_some_iff.mp h
  intro name hname
  refine ⟨hne name hname, @Text.not_mem_of_mem_segments '.' path.toList _ ?_⟩
  rw [hsegments]
  exact List.mem_map_of_mem hname

/-- The path of an attribute without dots in its names is read as the attribute. -/
theorem ofPath?_path (h : a.IsDotless) : ofPath? a.path = some a := by
  refine ofPath?_eq_some_iff.mpr ⟨?_, fun name hname => (h name hname).1⟩
  rw [path, Text.joinWith, String.toList_intercalate]
  refine Text.segments_intercalate ?_ (List.cons_ne_nil _ _)
  exact List.forall_mem_map.mpr fun name hname => (h name hname).2

/-- A path names the attribute of which it is the path, if the names of this are not empty and have
no dots, and it names none just when it has an empty segment. So paths without empty segments and
such attributes correspond to each other. -/
theorem ofPath?_inverts_path :
    (∀ path a, ofPath? path = some a ↔ a.path = path ∧ a.IsDotless)
      ∧ ∀ path, ofPath? path = none ↔ Text.HasEmptySegment '.' path.toList := by
  refine ⟨fun path a => ⟨fun h => ⟨path_of_ofPath? h, isDotless_of_ofPath? h⟩, ?_⟩,
    fun path => ofPath?_eq_none_iff⟩
  rintro ⟨rfl, h⟩
  exact ofPath?_path h

end Attribute

end NodeQuery
