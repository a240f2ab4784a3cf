/-
How deep conditions are nested after edits.

A deletion makes a condition no deeper, an edit leaves it as deep as it is, and an addition makes
it no less deep.

* `Condition.depth_remove_le`, `Condition.depth_update`, `Condition.depth_le_join`: one edit.
* `Changes.levels_deletions_le_apply`: all changes of a condition.
-/
import NodeQuery.Proofs.Opening

namespace NodeQuery

/-! ### One edit -/

namespace Condition

variable {extra : Attribute → Nat}

theorem depth_regroup_le {k : Connective} {cs : List Condition} :
    ∀ r ∈ regroup k cs, r.depth extra ≤ depthOfAll extra cs + 1 := by
  intro r hr
  match cs, hr with
  | [c], hr =>
    cases hr
    exact (depth_le_depthOfAll (List.mem_singleton_self _)).trans (Nat.le_succ _)
  | c :: d :: cs, hr =>
    cases hr
    exact le_refl _

/-- What is left of a condition is nested no deeper. -/
theorem depth_remove_le (s : Selector) (c : Condition) :
    ∀ r ∈ (c.remove s).1, r.depth extra ≤ c.depth extra := by
  induction c with
  | value m =>
    intro r hr
    rw [remove] at hr
    split_ifs at hr
    · cases hr
    · cases hr
      exact le_refl _
  | relation a op e c spans ih =>
    intro r hr
    rw [remove] at hr
    split_ifs at hr
    · cases hr
    · cases hr
      exact le_refl _
  | negation c ih =>
    intro r hr
    obtain ⟨b, hb, rfl⟩ := Option.map_eq_some_iff.mp hr
    exact Nat.succ_le_succ (ih b hb)
  | group k cs ih =>
    have key : depthOfAll extra (removeFromAll s cs).1 ≤ depthOfAll extra cs := by
      have hall : ∀ d ∈ (removeFromAll s cs).1, d.depth extra ≤ depthOfAll extra cs := by
        intro d hd
        rcases mem_removeFromAll hd with hd | ⟨c, hc, hd⟩
        · exact depth_le_depthOfAll hd
        · exact (ih c hc d hd).trans (depth_le_depthOfAll hc)
      exact depthOfAll_le hall
    intro r hr
    exact (depth_regroup_le r hr).trans (Nat.succ_le_succ key)

/-- A new value leaves a condition as deep as it is. -/
theorem depth_update (s : Selector) (new : String) (c : Condition) :
    (c.update s new).depth extra = c.depth extra := by
  refine update_induction (motive := fun c d => d.depth extra = c.depth extra) (fun _ => rfl)
    (fun _ _ => rfl) (fun c d hd => ?_) (fun k as c d bs hd => ?_) c
  · rw [depth, depth, hd]
  · rw [depth, depth, depthOfAll_append, depthOfAll_append, depthOfAll, depthOfAll, hd]

/-- A condition that is joined with another one is nested as deep or deeper. -/
theorem depth_le_join (k : Connective) (c new : Condition) :
    c.depth extra ≤ (join k (some c) new).depth extra := by
  unfold join
  split
  · rename_i h
    cases h
  · rename_i l cs h
    cases h
    split_ifs
    · rw [depth, depth, depthOfAll_append]
      exact Nat.succ_le_succ (le_max_left _ _)
    · exact (depth_le_depthOfAll (List.mem_cons_self ..)).trans (Nat.le_succ _)
  · rename_i h
    cases h
    exact (depth_le_depthOfAll (List.mem_cons_self ..)).trans (Nat.le_succ _)

end Condition

/-! ### All changes of a condition -/

theorem Condition.levels_placeholder {e : Entity} (h : e.isPlain = true) :
    (Condition.placeholder e).levels = 1 :=
  levels_of_isPlain (isPlain_placeholder h)

namespace Changes

variable {settings : Settings} {changes : Changes} {e : Entity} {c : Condition}

theorem levels_deletions_le (he : e.isPlain = true) (xs : List Constraint)
    (h : c.levels ≤ Parser.maxNesting) :
    (xs.foldl (delete e) c).levels ≤ Parser.maxNesting := by
  induction xs generalizing c with
  | nil => exact h
  | cons x xs ih =>
    refine ih ?_
    rw [delete]
    cases hr : (c.remove x.selector).1 with
    | none => exact (Condition.levels_placeholder he).trans_le (by decide)
    | some r => exact (Condition.depth_remove_le x.selector c r hr).trans h

theorem levels_foldl_edit (xs : List Constraint) (c : Condition) :
    (xs.foldl edit c).levels = c.levels := by
  induction xs generalizing c with
  | nil => rfl
  | cons x xs ih =>
    rw [List.foldl_cons, ih, edit]
    cases x.valueText? with
    | none => rfl
    | some v =>
      simp only
      split_ifs
      · exact Condition.depth_update x.selector v c
      · rfl

theorem levels_le_add (he : e.isPlain = true) (c : Condition) (x : Constraint) :
    c.levels ≤ (add settings e c x).levels := by
  rw [add]
  cases x.condition? with
  | none => exact le_refl _
  | some new =>
    simp only
    split_ifs with hreadable hplaceholder
    · -- the placeholder is nested no deeper than what takes its place
      rw [Condition.isPlaceholder_iff.mp hplaceholder, Condition.levels_placeholder he]
      exact Condition.one_le_depth new
    · exact Condition.depth_le_join settings.combine c new
    · exact le_refl _

theorem levels_le_additions (he : e.isPlain = true) (xs : List Constraint) (c : Condition) :
    c.levels ≤ (xs.foldl (add settings e) c).levels := by
  induction xs generalizing c with
  | nil => exact le_refl _
  | cons x xs ih =>
    rw [List.foldl_cons]
    exact (levels_le_add he c x).trans (ih _)

/-- A condition is nested as deep after all changes as it is after the deletions, or deeper. -/
theorem levels_deletions_le_apply (he : e.isPlain = true) :
    (changes.deletions.foldl (delete e) c).levels ≤ (changes.apply settings e c).levels := by
  rw [apply]
  refine le_trans ?_ (levels_le_additions he changes.additions _)
  exact (levels_foldl_edit changes.edits _).ge

end Changes

end NodeQuery
