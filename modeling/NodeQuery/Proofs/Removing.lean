/-
Removal takes out the first leaf that is selected, and no other.

What is removed is said of the list of leaves: what is left of a condition has the same leaves in
the same order, without the first of those that are selected. Nothing of this depends on how the
condition is built. That groups have two members or more is what makes the rest follow: a condition
in which nothing is selected then stays as it is, no group is left with fewer members, and nothing
is left just when the leaf removed was the only one.

* `Condition.IsPaired`: the groups of a condition have two members or more.
* `Condition.atomics_remove`, `Condition.snd_remove`: the leaves that are left, and whether one is
  removed.
* `Condition.remove_of_forall`: a condition in which nothing is selected.
* `Condition.isPaired_remove`, `Condition.remove_eq_none_iff`: the groups of what is left, and when
  nothing is.
* `Condition.remove_first_selected`: all of this, and that the leaf removed is the one that is
  found.
-/
import Mathlib.Data.List.Flatten
import NodeQuery.Proofs.Locality

namespace NodeQuery.Condition

/-! ### Groups -/

mutual

/-- The groups of a condition have two members or more. Nested queries are not looked into. -/
def IsPaired : Condition → Prop
  | value _ => True
  | relation .. => True
  | negation c => c.IsPaired
  | group _ cs => 2 ≤ cs.length ∧ AllPaired cs

/-- The groups of all of the conditions have two members or more. -/
def AllPaired : List Condition → Prop
  | [] => True
  | c :: cs => c.IsPaired ∧ AllPaired cs

end

theorem allPaired_iff {cs : List Condition} : AllPaired cs ↔ ∀ c ∈ cs, c.IsPaired := by
  induction cs with
  | nil => simp [AllPaired]
  | cons c cs ih => rw [AllPaired, ih, List.forall_mem_cons]

theorem WellFormed.isPaired {P : Attribute → Prop} {c : Condition} (h : c.WellFormed P) :
    c.IsPaired := by
  induction c with
  | value m => trivial
  | relation a op e c spans ih => trivial
  | negation c ih => exact ih h
  | group k cs ih =>
    exact ⟨h.1, allPaired_iff.mpr fun c hc => ih c hc (allWellFormed_iff.mp h.2 c hc)⟩

/-- A condition whose groups have members has a leaf. -/
theorem IsPaired.atomics_ne_nil {c : Condition} (h : c.IsPaired) : c.atomics ≠ [] := by
  induction c with
  | value m => exact List.cons_ne_nil _ _
  | relation a op e c spans ih => exact List.cons_ne_nil _ _
  | negation c ih => exact ih h
  | group k cs ih =>
    obtain ⟨hlength, hcs⟩ := h
    obtain ⟨c, hc⟩ := List.exists_mem_of_length_pos (Nat.lt_of_lt_of_le Nat.two_pos hlength)
    intro hnil
    rw [atomics, atomicsOfAll_eq_flatMap, List.flatMap_eq_nil_iff] at hnil
    exact ih c hc (allPaired_iff.mp hcs c hc) (hnil c hc)

theorem regroup_of_two_le {k : Connective} {cs : List Condition} (h : 2 ≤ cs.length) :
    regroup k cs = some (.group k cs) := by
  match cs, h with
  | _ :: _ :: _, _ => rfl

theorem atomics_regroup (k : Connective) (cs : List Condition) :
    (regroup k cs).toList.flatMap atomics = cs.flatMap atomics := by
  match cs with
  | [] => rfl
  | [c] => rfl
  | c :: d :: cs =>
    rw [regroup_of_two_le (by simp), Option.toList_some, List.flatMap_singleton, atomics,
      atomicsOfAll_eq_flatMap]

theorem isPaired_regroup {k : Connective} {cs : List Condition} (h : ∀ c ∈ cs, c.IsPaired) :
    ∀ r ∈ regroup k cs, r.IsPaired := by
  intro r hr
  match cs, hr with
  | [c], hr =>
    cases hr
    exact h r (List.mem_singleton_self r)
  | c :: d :: cs, hr =>
    cases hr
    exact ⟨by simp, allPaired_iff.mpr h⟩

/-! ### The leaves that are left -/

section Remove

variable (s : Selector)

theorem remove_negation (c : Condition) :
    (negation c).remove s = ((c.remove s).1.map negation, (c.remove s).2) := by
  rw [remove]

theorem remove_group (k : Connective) (cs : List Condition) :
    (group k cs).remove s = (regroup k (removeFromAll s cs).1, (removeFromAll s cs).2) := by
  rw [remove]

theorem removeFromAll_cons (c : Condition) (cs : List Condition) :
    removeFromAll s (c :: cs) = if (c.remove s).2 then ((c.remove s).1.toList ++ cs, true)
      else ((c.remove s).1.toList ++ (removeFromAll s cs).1, (removeFromAll s cs).2) := by
  rw [removeFromAll]
  split <;> simp_all

/-- A leaf is removed if one is selected. -/
theorem snd_remove (c : Condition) : (c.remove s).2 = c.atomics.any s.selects := by
  induction c with
  | value m =>
    rw [remove, atomics]
    split_ifs with hs <;> simp [hs]
  | relation a op e c spans ih =>
    rw [remove, atomics]
    split_ifs with hs <;> simp [hs]
  | negation c ih => rw [remove_negation, ih, atomics]
  | group k cs ih =>
    rw [remove_group, atomics, atomicsOfAll_eq_flatMap]
    induction cs with
    | nil => rfl
    | cons c cs ihs =>
      rw [List.forall_mem_cons] at ih
      have hcs := ihs ih.2
      rw [removeFromAll_cons, List.flatMap_cons, List.any_append, ← ih.1, ← hcs]
      split_ifs with hhit <;> simp [hhit]

/-- What is left of a condition has its leaves, but for the first that is selected. -/
theorem atomics_remove (c : Condition) :
    (c.remove s).1.toList.flatMap atomics = c.atomics.eraseP s.selects := by
  induction c with
  | value m =>
    rw [remove, atomics]
    split_ifs with hs <;> simp [hs, atomics]
  | relation a op e c spans ih =>
    rw [remove, atomics]
    split_ifs with hs <;> simp [hs, atomics]
  | negation c ih =>
    rw [remove_negation, atomics, ← ih]
    cases (c.remove s).1 <;> rfl
  | group k cs ih =>
    rw [remove_group, atomics_regroup, atomics, atomicsOfAll_eq_flatMap]
    induction cs with
    | nil => rfl
    | cons c cs ihs =>
      rw [List.forall_mem_cons] at ih
      -- the members behind the one that loses a leaf are not looked at
      rw [removeFromAll_cons, snd_remove, List.flatMap_cons, List.eraseP_append]
      split_ifs with hhit
      · rw [List.flatMap_append, ih.1]
      · have hnone : ∀ a ∈ c.atomics, ¬s.selects a = true := by simpa using hhit
        rw [List.flatMap_append, ih.1, ihs ih.2, List.eraseP_of_forall_not hnone]

variable {s}

/-- A condition in which nothing is selected stays as it is. -/
theorem remove_of_forall {c : Condition} (h : c.IsPaired)
    (hs : ∀ a ∈ c.atomics, s.selects a = false) : c.remove s = (some c, false) := by
  induction c with
  | value m =>
    rw [remove, hs (.value m) (List.mem_singleton_self _)]
    rfl
  | relation a op e c spans ih =>
    rw [remove, hs (.relation a op ⟨e, c, spans⟩) (List.mem_singleton_self _)]
    rfl
  | negation c ih =>
    rw [remove_negation, ih h hs]
    rfl
  | group k cs ih =>
    have hcs : removeFromAll s cs = (cs, false) := by
      rw [atomics, atomicsOfAll_eq_flatMap] at hs
      have hpaired := allPaired_iff.mp h.2
      clear h
      induction cs with
      | nil => rfl
      | cons c cs ihs =>
        rw [List.forall_mem_cons] at ih hpaired
        rw [List.flatMap_cons, List.forall_mem_append] at hs
        rw [removeFromAll_cons, ih.1 hpaired.1 hs.1, ihs ih.2 hs.2 hpaired.2]
        rfl
    rw [remove_group, hcs, regroup_of_two_le h.1]

/-- The groups of what is left have two members or more. -/
theorem isPaired_remove {c : Condition} (h : c.IsPaired) : ∀ r ∈ (c.remove s).1, r.IsPaired := by
  induction c with
  | value m =>
    intro r hr
    rw [remove] at hr
    split_ifs at hr
    · cases hr
    · cases hr
      trivial
  | relation a op e c spans ih =>
    intro r hr
    rw [remove] at hr
    split_ifs at hr
    · cases hr
    · cases hr
      trivial
  | negation c ih =>
    intro r hr
    obtain ⟨d, hd, rfl⟩ := Option.map_eq_some_iff.mp hr
    exact ih h d hd
  | group k cs ih =>
    have hcs := allPaired_iff.mp h.2
    refine isPaired_regroup fun d hd => ?_
    rcases mem_removeFromAll hd with hd | ⟨c, hc, hd⟩
    · exact hcs d hd
    · exact ih c hc (hcs c hc) d hd

/-- Nothing is left if the only leaf is removed. -/
theorem remove_eq_none_iff {c : Condition} (h : c.IsPaired) :
    (c.remove s).1 = none ↔ ∃ a, c.atomics = [a] ∧ s.selects a = true := by
  have hleft : (c.remove s).1 = none ↔ (c.remove s).1.toList.flatMap atomics = [] := by
    cases hrest : (c.remove s).1 with
    | none => simp
    | some d => simpa using (isPaired_remove h d hrest).atomics_ne_nil
  rw [hleft, atomics_remove, List.eraseP_eq_nil_iff]
  simp [h.atomics_ne_nil, and_comm]

/-- The queries in what is left are queries in the condition. -/
theorem queries_remove_sublist (c : Condition) :
    ∀ r ∈ (c.remove s).1, r.queries.Sublist c.queries := by
  intro r hr
  have hleaves := atomics_remove s c
  rw [Option.mem_def.mp hr, Option.toList_some, List.flatMap_singleton] at hleaves
  rw [r.queries_eq, c.queries_eq, hleaves]
  exact (List.eraseP_sublist.filterMap _).flatMap _

/-- Something is removed just when something is found. -/
theorem snd_remove_iff (c : Condition) : (c.remove s).2 = true ↔ (c.find? s).isSome = true := by
  rw [snd_remove, find?, List.any_eq_true, List.find?_isSome]

/-- If no leaf is selected, all is left of a condition, and none is found. Otherwise the leaves that
are left are all but the first that is selected, which is the one that is found; the groups of what
is left have two members or more, and so have those in nested queries if they did before; and
nothing is left just when there was no other leaf. -/
theorem remove_first_selected (s : Selector) {c : Condition} (h : c.IsPaired) :
    ((∀ a ∈ c.atomics, s.selects a = false) →
        c.find? s = none ∧ c.remove s = (some c, false))
      ∧ (∀ before a after, c.atomics = before ++ a :: after →
        (∀ b ∈ before, s.selects b = false) → s.selects a = true →
        c.find? s = some a ∧ ∃ rest, c.remove s = (rest, true)
          ∧ rest.toList.flatMap atomics = before ++ after
          ∧ (∀ r ∈ rest, r.IsPaired ∧ r.queries.Sublist c.queries)
          ∧ (rest = none ↔ c.atomics = [a]))
      ∧ ((c.remove s).2 = true ↔ (c.find? s).isSome = true) := by
  refine ⟨fun hnone => ⟨?_, remove_of_forall h hnone⟩, ?_, snd_remove_iff c⟩
  · rw [find?, List.find?_eq_none]
    simpa using hnone
  · intro before a after hatomics hbefore ha
    have hfind : c.find? s = some a := by
      rw [find?, List.find?_eq_some_iff_append]
      exact ⟨ha, before, after, hatomics, by simpa using hbefore⟩
    have hhit : (c.remove s).2 = true := by rw [snd_remove_iff, hfind, Option.isSome_some]
    refine ⟨hfind, (c.remove s).1, Prod.ext rfl hhit, ?_, fun r hr => ?_, ?_⟩
    · have hbefore' : ∀ b ∈ before, ¬s.selects b = true := by simpa using hbefore
      rw [atomics_remove, hatomics, List.eraseP_append_right _ hbefore', List.eraseP_cons_of_pos ha]
    · exact ⟨isPaired_remove h r hr, queries_remove_sublist c r hr⟩
    · rw [remove_eq_none_iff h]
      constructor
      · rintro ⟨b, hb, -⟩
        have hmem : a ∈ c.atomics := by simp [hatomics]
        rw [hb, List.mem_singleton] at hmem
        rw [hb, hmem]
      · intro hone
        exact ⟨a, hone, ha⟩

end Remove

/-- Of two equal leaves the first is removed, and the negation around it with it. -/
theorem remove_first_selected_negated :
    let one : ValueMatch := ⟨⟨"fc", ["a"]⟩, .equal, "1"⟩
    let two : ValueMatch := ⟨⟨"fc", ["b"]⟩, .equal, "2"⟩
    let c : Condition := .group .conj [.value two,
      .negation (.value one), .group .disj [.value two, .value one]]
    let s : Selector := { path := "fc.a", operator? := some " == " }
    c.IsPaired ∧ c.find? s = some (.value one) ∧ ∃ rest, c.remove s = (rest, true)
      ∧ rest.toList.flatMap atomics = [.value two, .value two, .value one] ∧ rest ≠ none := by
  intro one two c s
  have hpaired : c.IsPaired :=
    ⟨by decide, trivial, trivial, ⟨by decide, trivial, trivial, trivial⟩, trivial⟩
  obtain ⟨-, hfirst, -⟩ := remove_first_selected s hpaired
  obtain ⟨hfind, rest, hremove, hrest, -, hnone⟩ :=
    hfirst [.value two] (.value one) [.value two, .value one] rfl (by decide) (by decide)
  refine ⟨hpaired, hfind, rest, hremove, hrest, fun h => ?_⟩
  have hlength := congrArg List.length (hnone.mp h)
  cases hlength

end NodeQuery.Condition
