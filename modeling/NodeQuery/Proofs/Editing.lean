/-
What edits leave as it is.

Whatever is demanded of the leaves of a condition and of the declarations in it still holds
after an edit, as long as it holds of what the edit brings in; and the groups of a condition
still have two members or more.

* `Demands`, `Condition.Meets`: what is demanded of the parts of a condition.
* `Condition.meets_remove`, `Condition.meets_update`, `Condition.meets_join`: one edit.
* `Condition.meets_rebuild`: a change of the condition of every query inside a condition.
* `Condition.entities`: the declarations inside a condition. Edits add none, except for those
  in a condition that is added.
-/
import Mathlib.Tactic.Common
import NodeQuery.Constraint.Merge
import NodeQuery.Proofs.Shape

namespace NodeQuery

/-! ### Demands -/

/-- What is demanded of the parts of a condition: of a comparison and of the attribute of a
relation, given the entity that the condition is about, and of a declaration. -/
structure Demands where
  value : Entity → ValueMatch → Prop
  subject : Entity → Attribute → Prop
  entity : Entity → Prop

/-- What is demanded of the parts of a well-formed condition. -/
def Demands.wellFormed (P : Attribute → Prop) : Demands :=
  ⟨fun _ m => P m.subject, fun _ a => P a, fun d => d.isPlain = true⟩

namespace Condition

section Meets

variable (D : Demands)

mutual

/-- The parts of a condition on an entity are as demanded, and groups have two members or
more. -/
def Meets : Condition → Entity → Prop
  | value m, e => D.value e m
  | relation a _ d c _, e => D.subject e a ∧ D.entity d ∧ c.Meets d
  | negation c, e => c.Meets e
  | group _ cs, e => 2 ≤ cs.length ∧ AllMeet cs e

/-- The parts of all of the conditions on an entity are as demanded. -/
def AllMeet : List Condition → Entity → Prop
  | [], _ => True
  | c :: cs, e => c.Meets e ∧ AllMeet cs e

end

end Meets

variable {D : Demands}

theorem allMeet_iff {cs : List Condition} {e : Entity} :
    AllMeet D cs e ↔ ∀ c ∈ cs, c.Meets D e := by
  induction cs with
  | nil => simp [AllMeet]
  | cons c cs ih => rw [AllMeet, ih, List.forall_mem_cons]

theorem meets_wellFormed_iff {P : Attribute → Prop} {c : Condition} {e : Entity} :
    c.Meets (.wellFormed P) e ↔ c.WellFormed P := by
  induction c generalizing e with
  | value m => rfl
  | relation a op d c spans ih =>
    rw [Meets, WellFormed, ih]
    rfl
  | negation c ih => exact ih
  | group k cs ih =>
    rw [Meets, WellFormed, allMeet_iff, allWellFormed_iff]
    exact and_congr_right fun _ => forall₂_congr fun c hc => ih c hc

theorem meets_eraseSpans {D : Demands} {c : Condition} {e : Entity} :
    c.eraseSpans.Meets D e ↔ c.Meets D e := by
  induction c generalizing e with
  | value m => rfl
  | relation a op d c spans ih =>
    rw [eraseSpans, Meets, Meets, ih]
  | negation c ih => exact ih
  | group k cs ih =>
    rw [eraseSpans, Meets, Meets, allMeet_iff, allMeet_iff, eraseAllSpans_eq_map,
      List.length_map, List.forall_mem_map]
    exact and_congr_right fun _ => forall₂_congr fun c hc => ih c hc

/-! ### Removal -/

theorem mem_removeFromAll {s : Selector} {cs : List Condition} {d : Condition}
    (h : d ∈ (removeFromAll s cs).1) : d ∈ cs ∨ ∃ c ∈ cs, d ∈ (c.remove s).1 := by
  induction cs with
  | nil => simp [removeFromAll] at h
  | cons c cs ih =>
    rw [removeFromAll] at h
    split at h
    · rename_i rest hrest
      rcases List.mem_append.mp h with h | h
      · exact .inr ⟨c, by simp, by rw [hrest]; exact Option.mem_toList.mp h⟩
      · exact .inl (List.mem_cons_of_mem c h)
    · rename_i rest hrest
      rcases List.mem_append.mp h with h | h
      · exact .inr ⟨c, by simp, by rw [hrest]; exact Option.mem_toList.mp h⟩
      · rcases ih h with h | ⟨b, hb, h⟩
        · exact .inl (List.mem_cons_of_mem c h)
        · exact .inr ⟨b, List.mem_cons_of_mem c hb, h⟩

theorem meets_regroup {k : Connective} {cs : List Condition} {e : Entity}
    (h : ∀ c ∈ cs, c.Meets D e) : ∀ r ∈ regroup k cs, r.Meets D e := by
  intro r hr
  match cs, hr with
  | [c], hr =>
    cases hr
    exact h r (by simp)
  | c :: d :: cs, hr =>
    cases hr
    exact ⟨by simp, allMeet_iff.mpr h⟩

/-- What is left of a condition is as demanded. -/
theorem meets_remove {s : Selector} {c : Condition} {e : Entity} (h : c.Meets D e) :
    ∀ r ∈ (c.remove s).1, r.Meets D e := by
  induction c generalizing e with
  | value m =>
    intro r hr
    rw [remove] at hr
    split_ifs at hr
    · cases hr
    · cases hr
      exact h
  | relation a op d c spans ih =>
    intro r hr
    rw [remove] at hr
    split_ifs at hr
    · cases hr
    · cases hr
      exact h
  | negation c ih =>
    intro r hr
    obtain ⟨b, hb, rfl⟩ := Option.map_eq_some_iff.mp hr
    exact ih h b hb
  | group k cs ih =>
    have hcs := allMeet_iff.mp h.2
    refine meets_regroup fun d hd => ?_
    rcases mem_removeFromAll hd with hd | ⟨c, hc, hd⟩
    · exact hcs d hd
    · exact ih c hc (hcs c hc) d hd

/-! ### Update -/

/-- A new value is given to a leaf of one of the conditions, and there is none to give it to in
those in front. -/
theorem updateInAll?_eq_some {s : Selector} {new : String} {cs ds : List Condition}
    (h : updateInAll? s new cs = some ds) :
    ∃ as c d bs, cs = as ++ c :: bs ∧ ds = as ++ d :: bs ∧ (∀ a ∈ as, a.update? s new = none)
      ∧ c.update? s new = some d := by
  induction cs generalizing ds with
  | nil => cases h
  | cons c cs ih =>
    rw [updateInAll?] at h
    split at h
    · rename_i d hd
      cases h
      exact ⟨[], c, d, cs, rfl, rfl, by simp, hd⟩
    · rename_i hc
      obtain ⟨es, hes, rfl⟩ := Option.map_eq_some_iff.mp h
      obtain ⟨as, b, d, bs, rfl, rfl, has, hd⟩ := ih hes
      exact ⟨c :: as, b, d, bs, rfl, rfl, List.forall_mem_cons.mpr ⟨hc, has⟩, hd⟩

/-- Only one comparison changes in an update, and the rest of the condition stays as it is. -/
theorem update_induction {s : Selector} {new : String} {motive : Condition → Condition → Prop}
    (refl : ∀ c, motive c c)
    (value : ∀ m, s.selectsValue m = true →
      motive (.value m) (.value ⟨m.subject, m.operator, carryQuotes m.value (Text.trim new)⟩))
    (negation : ∀ c d, motive c d → motive (.negation c) (.negation d))
    (group : ∀ k as c d bs, motive c d →
      motive (.group k (as ++ c :: bs)) (.group k (as ++ d :: bs)))
    (c : Condition) : motive c (c.update s new) := by
  have key : ∀ r, c.update? s new = some r → motive c r := by
    induction c with
    | value m =>
      intro r hr
      rw [update?] at hr
      split_ifs at hr with hs
      cases hr
      exact value m hs
    | relation a op d c spans ih =>
      intro r hr
      cases hr
    | negation c ih =>
      intro r hr
      obtain ⟨b, hb, rfl⟩ := Option.map_eq_some_iff.mp hr
      exact negation c b (ih b hb)
    | group k cs ih =>
      intro r hr
      obtain ⟨ds, hds, rfl⟩ := Option.map_eq_some_iff.mp hr
      obtain ⟨as, b, d, bs, rfl, rfl, -, hd⟩ := updateInAll?_eq_some hds
      exact group k as b d bs (ih b (by simp) d hd)
  rw [update]
  cases hr : c.update? s new with
  | none => exact refl c
  | some r => exact key r hr

/-- A condition with a new value is as demanded if the comparison with the new value is. -/
theorem meets_update {s : Selector} {new : String} {c : Condition} {e : Entity}
    (hnew : ∀ m, s.selectsValue m = true → D.value e m →
      D.value e ⟨m.subject, m.operator, carryQuotes m.value (Text.trim new)⟩)
    (h : c.Meets D e) : (c.update s new).Meets D e := by
  refine update_induction (motive := fun c d => c.Meets D e → d.Meets D e) (fun _ => id) hnew
    (fun _ _ hd => hd) (fun k as c d bs hd hc => ?_) c h
  obtain ⟨hlen, hcs⟩ := hc
  simp only [allMeet_iff, List.forall_mem_append, List.forall_mem_cons] at hcs
  refine ⟨by simpa using hlen, ?_⟩
  simp only [allMeet_iff, List.forall_mem_append, List.forall_mem_cons]
  exact ⟨hcs.1, hd hcs.2.1, hcs.2.2⟩

/-! ### Addition -/

theorem meets_join {k : Connective} {existing : Option Condition} {new : Condition} {e : Entity}
    (h : ∀ c ∈ existing, c.Meets D e) (hnew : new.Meets D e) :
    (join k existing new).Meets D e := by
  unfold join
  split
  · exact hnew
  · rename_i l cs
    have hcs := h _ rfl
    split_ifs
    · refine ⟨by simpa using Nat.le_succ_of_le hcs.1, ?_⟩
      rw [allMeet_iff, List.forall_mem_append]
      exact ⟨allMeet_iff.mp hcs.2, by simpa using hnew⟩
    · exact ⟨by simp, hcs, hnew, trivial⟩
  · rename_i c hc
    exact ⟨by simp, h c rfl, hnew, trivial⟩

end Condition

/-! ### The changes of a query -/

/-- The changes bring in nothing but what is demanded. -/
structure Changes.Respects (D : Demands) (changes : Changes) : Prop where
  edits : ∀ c ∈ changes.edits, ∀ v, c.valueText? = some v → ∀ e m, D.entity e →
    c.selector.selectsValue m = true → D.value e m →
    D.value e ⟨m.subject, m.operator, Condition.carryQuotes m.value (Text.trim v)⟩
  additions : ∀ c ∈ changes.additions, ∀ new, c.condition? = some new → new.isReadable = true →
    ∀ e, D.entity e → new.Meets D e

section Changes

variable {D : Demands} {settings : Settings} {changes : Changes}

theorem Changes.meets_delete
    (hplaceholder : ∀ e, D.entity e → (Condition.placeholder e).Meets D e) {e : Entity}
    (he : D.entity e) {c : Condition} (hc : c.Meets D e) (x : Constraint) :
    (delete e c x).Meets D e := by
  rw [delete]
  cases hr : (c.remove x.selector).1 with
  | none => exact hplaceholder e he
  | some r => exact Condition.meets_remove hc r hr

theorem Changes.meets_deletions
    (hplaceholder : ∀ e, D.entity e → (Condition.placeholder e).Meets D e) {e : Entity}
    (he : D.entity e) {c : Condition} (hc : c.Meets D e) (xs : List Constraint) :
    (xs.foldl (delete e) c).Meets D e := by
  refine List.foldlRecOn (motive := fun b : Condition => b.Meets D e) _ _ hc fun b hb x _ => ?_
  exact meets_delete hplaceholder he hb x

theorem Changes.meets_edit (h : changes.Respects D) {e : Entity} (he : D.entity e) {c : Condition}
    (hc : c.Meets D e) {x : Constraint} (hx : x ∈ changes.edits) : (edit c x).Meets D e := by
  rw [edit]
  split
  · exact hc
  · rename_i v hv
    simp only
    split_ifs
    · exact Condition.meets_update (fun m => h.edits x hx v hv e m he) hc
    · exact hc

/-- A condition is as demanded after all changes. -/
theorem Changes.meets_apply (hplaceholder : ∀ e, D.entity e → (Condition.placeholder e).Meets D e)
    (h : changes.Respects D) {e : Entity} (he : D.entity e) {c : Condition} (hc : c.Meets D e) :
    (changes.apply settings e c).Meets D e := by
  have hdelete := meets_deletions hplaceholder he hc changes.deletions
  have hedit : (changes.edits.foldl edit (changes.deletions.foldl (delete e) c)).Meets D e := by
    refine List.foldlRecOn (motive := fun b : Condition => b.Meets D e) _ _ hdelete
      fun b hb x hx => ?_
    exact meets_edit h he hb hx
  refine List.foldlRecOn (motive := fun b : Condition => b.Meets D e) _ _ hedit
    fun b hb x hx => ?_
  rw [add]
  split
  · exact hb
  · rename_i new hnew
    split_ifs with hreadable hplain
    · exact Condition.meets_join (by simp) (h.additions x hx new hnew hreadable e he)
    · refine Condition.meets_join ?_ (h.additions x hx new hnew hreadable e he)
      rintro d ⟨rfl⟩
      exact hb
    · exact hb

end Changes

namespace Condition

variable {D : Demands} {change : Nat → Entity → Condition → Condition}

theorem mem_rebuildAll {next : Nat} {cs : List Condition} {d : Condition}
    (h : d ∈ rebuildAll change next cs) : ∃ c ∈ cs, ∃ i, d = c.rebuild change i := by
  induction cs generalizing next with
  | nil => cases h
  | cons c cs ih =>
    rcases List.mem_cons.mp h with rfl | h
    · exact ⟨c, by simp, next, rfl⟩
    · obtain ⟨b, hb, i, rfl⟩ := ih h
      exact ⟨b, List.mem_cons_of_mem c hb, i, rfl⟩

theorem length_rebuildAll (next : Nat) (cs : List Condition) :
    (rebuildAll change next cs).length = cs.length := by
  induction cs generalizing next with
  | nil => rfl
  | cons c cs ih => rw [rebuildAll, List.length_cons, ih, List.length_cons]

/-- A condition is as demanded after a change of the conditions of the queries inside it that
keeps what is demanded. -/
theorem meets_rebuild
    (hchange : ∀ i e c, D.entity e → c.Meets D e → (change i e c).Meets D e) {c : Condition}
    {e : Entity} {next : Nat} (h : c.Meets D e) : (c.rebuild change next).Meets D e := by
  induction c generalizing e next with
  | value m => exact h
  | relation a op d c spans ih =>
    obtain ⟨ha, hd, hc⟩ := h
    exact ⟨ha, hd, hchange next d _ hd (ih hc)⟩
  | negation c ih => exact ih h
  | group k cs ih =>
    refine ⟨(length_rebuildAll next cs).symm ▸ h.1, allMeet_iff.mpr fun d hd => ?_⟩
    obtain ⟨c, hc, i, rfl⟩ := mem_rebuildAll hd
    exact ih c hc (allMeet_iff.mp h.2 c hc)

end Condition

namespace Condition

variable {change : Nat → Entity → Condition → Condition}

/-- A condition stays as it is if the condition of each query inside it does. -/
theorem rebuild_of_fixed {next : Nat} {c : Condition}
    (h : ∀ i p, c.queries[i]? = some p → change (next + i) p.entity p.condition = p.condition) :
    c.rebuild change next = c := by
  induction c generalizing next with
  | value m => rfl
  | relation a op e c spans ih =>
    have hself : change next e c = c := h 0 ⟨e, c, spans⟩ rfl
    have hinner : c.rebuild change (next + 1) = c := by
      refine ih fun i p hp => ?_
      rw [Nat.add_assoc, Nat.add_comm 1 i]
      exact h (i + 1) p hp
    rw [rebuild, hinner, hself]
  | negation c ih => rw [rebuild, ih h]
  | group k cs ih =>
    have key : ∀ next, (∀ i p, (queriesOfAll cs)[i]? = some p →
        change (next + i) p.entity p.condition = p.condition) →
        rebuildAll change next cs = cs := by
      clear h
      induction cs with
      | nil => exact fun _ _ => rfl
      | cons c cs ihs =>
        rw [List.forall_mem_cons] at ih
        intro next h
        rw [queriesOfAll] at h
        have hfirst : c.rebuild change next = c := by
          refine ih.1 fun i p hp => h i p ?_
          obtain ⟨hi, -⟩ := List.getElem?_eq_some_iff.mp hp
          rw [List.getElem?_append_left hi, hp]
        have hrest : rebuildAll change (next + c.queries.length) cs = cs := by
          refine ihs ih.2 _ fun i p hp => ?_
          rw [Nat.add_assoc]
          refine h _ p ?_
          rw [List.getElem?_append_right (Nat.le_add_right _ _), Nat.add_sub_cancel_left, hp]
        rw [rebuildAll, hfirst, hrest]
    rw [rebuild, key next h]

/-- A condition stays as it is if nothing is changed in the queries inside it. -/
theorem rebuild_of_forall {next : Nat} {c : Condition}
    (h : ∀ i, next ≤ i → i < next + c.queries.length → ∀ e d, change i e d = d) :
    c.rebuild change next = c := by
  refine rebuild_of_fixed fun i p hp => ?_
  obtain ⟨hi, -⟩ := List.getElem?_eq_some_iff.mp hp
  exact h (next + i) (Nat.le_add_right _ _) (Nat.add_lt_add_left hi next) _ _

end Condition

/-- Constraints that are aimed at nothing leave a query as it is. -/
theorem Query.applyAll_of_forall_eq_none {settings : Settings} {q : Query}
    {cs : List Constraint} (h : ∀ c ∈ cs, target? q c = none) : q.applyAll settings cs = q := by
  have hchange : ∀ i e c, (changesAt q cs i).apply settings e c = c := by
    intro i e c
    have hnone : (cs.filter fun c => target? q c = some i) = [] := by
      rw [List.filter_eq_nil_iff]
      intro b hb
      simp [h b hb]
    rw [changesAt, hnone]
    rfl
  rw [applyAll, rebuild, hchange, Condition.rebuild_of_forall fun i _ _ => hchange i]

/-- The condition of a query is as demanded after all changes. -/
theorem Query.meets_applyAll {D : Demands} {settings : Settings} {q : Query}
    {cs : List Constraint}
    (hplaceholder : ∀ e, D.entity e → (Condition.placeholder e).Meets D e)
    (hcs : ∀ i, (changesAt q cs i).Respects D) (hentity : D.entity q.entity)
    (h : q.condition.Meets D q.entity) :
    (q.applyAll settings cs).condition.Meets D q.entity := by
  have hchange : ∀ i e c, D.entity e → c.Meets D e →
      ((changesAt q cs i).apply settings e c).Meets D e :=
    fun i e c he hc => Changes.meets_apply hplaceholder (hcs i) he hc
  exact hchange 0 q.entity _ hentity (Condition.meets_rebuild hchange h)

/-! ### Declarations -/

namespace Condition

/-- The declarations inside a condition, each in front of those inside it. -/
def entities (c : Condition) : List Entity :=
  c.queries.map Query.entity

@[simp] theorem entities_value (m : ValueMatch) : (value m).entities = [] := rfl

@[simp] theorem entities_relation (a : Attribute) (op : RelOp) (e : Entity) (c : Condition)
    (spans : QuerySpans) : (relation a op e c spans).entities = e :: c.entities := rfl

@[simp] theorem entities_negation (c : Condition) : (negation c).entities = c.entities := rfl

@[simp] theorem entities_group (k : Connective) (cs : List Condition) :
    (group k cs).entities = cs.flatMap entities := by
  rw [entities, queries, queriesOfAll_eq_flatMap, List.map_flatMap]
  rfl

@[simp] theorem entities_placeholder (e : Entity) : (placeholder e).entities = [] := rfl

theorem entities_regroup (k : Connective) (cs : List Condition) :
    (regroup k cs).toList.flatMap entities = cs.flatMap entities := by
  match cs with
  | [] => rfl
  | [c] => rfl
  | c :: d :: cs => simp [regroup]

/-- A removal adds no declarations. -/
theorem entities_remove (s : Selector) (c : Condition) :
    ((c.remove s).1.toList.flatMap entities).Sublist c.entities := by
  induction c with
  | value m =>
    rw [remove]
    split_ifs <;> simp
  | relation a op e c spans ih =>
    rw [remove]
    split_ifs <;> simp
  | negation c ih =>
    have hmap : ((c.remove s).1.map negation).toList.flatMap entities
        = (c.remove s).1.toList.flatMap entities := by
      cases (c.remove s).1 <;> simp
    rw [remove, hmap]
    exact ih
  | group k cs ih =>
    -- the first member from which something was taken ends the search
    have key : ((removeFromAll s cs).1.flatMap entities).Sublist (cs.flatMap entities) := by
      induction cs with
      | nil => exact List.Sublist.refl _
      | cons c cs ihs =>
        rw [List.forall_mem_cons] at ih
        have hc := ih.1
        rw [removeFromAll]
        split
        · rename_i rest hrest
          rw [hrest] at hc
          rw [List.flatMap_append, List.flatMap_cons]
          exact hc.append (List.Sublist.refl _)
        · rename_i rest hrest
          rw [hrest] at hc
          rw [List.flatMap_append, List.flatMap_cons]
          exact hc.append (ihs ih.2)
    rw [remove, entities_regroup, entities_group]
    exact key

/-- A new value changes no declarations. -/
theorem entities_update (s : Selector) (new : String) (c : Condition) :
    (c.update s new).entities = c.entities := by
  refine update_induction (motive := fun c d => d.entities = c.entities) (fun _ => rfl)
    (fun _ _ => rfl) (fun _ _ hd => hd) (fun k as c d bs hd => ?_) c
  simp [hd]

/-- A condition that is joined with another one keeps its declarations. -/
theorem entities_join (k : Connective) (existing : Option Condition) (new : Condition) :
    (join k existing new).entities = existing.toList.flatMap entities ++ new.entities := by
  unfold join
  split
  · rfl
  · split_ifs <;> simp
  · simp

end Condition

/-- No declarations are in what the changes add. -/
def Changes.DeclareNothing (changes : Changes) : Prop :=
  ∀ c ∈ changes.additions, ∀ new, c.condition? = some new → new.isReadable = true →
    new.entities = []

section Changes

variable {settings : Settings} {changes : Changes}

/-- Only deletions change the declarations, if the changes add none. -/
theorem Changes.entities_apply_eq (h : changes.DeclareNothing) (e : Entity) (c : Condition) :
    (changes.apply settings e c).entities
      = (changes.deletions.foldl (delete e) c).entities := by
  have hedit : (changes.edits.foldl edit (changes.deletions.foldl (delete e) c)).entities
      = (changes.deletions.foldl (delete e) c).entities := by
    refine List.foldlRecOn (motive := fun b : Condition =>
      b.entities = (changes.deletions.foldl (delete e) c).entities) _ _ rfl fun b hb x _ => ?_
    rw [edit]
    split
    · exact hb
    · simp only
      split_ifs
      · rwa [Condition.entities_update]
      · exact hb
  refine List.foldlRecOn (motive := fun b : Condition =>
    b.entities = (changes.deletions.foldl (delete e) c).entities) _ _ hedit fun b hb x hx => ?_
  rw [add]
  split
  · exact hb
  · rename_i new hnew
    split_ifs with hreadable hplain
    · -- the placeholder, which is replaced, has no declarations in it
      rw [Condition.isPlaceholder_iff.mp hplain] at hb
      rw [Condition.entities_join, h x hx new hnew hreadable, ← hb]
      simp
    · rw [Condition.entities_join, h x hx new hnew hreadable, ← hb]
      simp
    · exact hb

/-- Changes that add no declarations leave some of those that are there. -/
theorem Changes.entities_apply (h : changes.DeclareNothing) (e : Entity) (c : Condition) :
    (changes.apply settings e c).entities.Sublist c.entities := by
  rw [Changes.entities_apply_eq h]
  refine List.foldlRecOn (motive := fun b : Condition => b.entities.Sublist c.entities) _ _
    (List.Sublist.refl _) fun b hb x _ => ?_
  have hremove := (Condition.entities_remove x.selector b).trans hb
  rw [delete]
  cases hr : (b.remove x.selector).1 with
  | none => simp
  | some r => simpa [hr] using hremove

end Changes

/-- A change of conditions that adds no declarations to any of them adds none in all. -/
theorem Condition.entities_rebuild {change : Nat → Entity → Condition → Condition}
    (hchange : ∀ i e c, (change i e c).entities.Sublist c.entities) (next : Nat) (c : Condition) :
    (c.rebuild change next).entities.Sublist c.entities := by
  induction c generalizing next with
  | value m => exact List.Sublist.refl _
  | relation a op e c spans ih =>
    exact ((hchange next e _).trans (ih (next + 1))).cons_cons e
  | negation c ih => exact ih next
  | group k cs ih =>
    rw [rebuild, entities_group, entities_group]
    induction cs generalizing next with
    | nil => exact List.Sublist.refl _
    | cons c cs ihs =>
      rw [List.forall_mem_cons] at ih
      rw [rebuildAll, List.flatMap_cons, List.flatMap_cons]
      exact (ih.1 next).append (ihs ih.2 _)

theorem Condition.entities_rebuild_eq {change : Nat → Entity → Condition → Condition}
    (hchange : ∀ i e c, (change i e c).entities = c.entities) (next : Nat) (c : Condition) :
    (c.rebuild change next).entities = c.entities := by
  induction c generalizing next with
  | value m => rfl
  | relation a op e c spans ih =>
    rw [rebuild, entities_relation, entities_relation, hchange, ih]
  | negation c ih => exact ih next
  | group k cs ih =>
    rw [rebuild, entities_group, entities_group]
    induction cs generalizing next with
    | nil => rfl
    | cons c cs ihs =>
      rw [List.forall_mem_cons] at ih
      rw [rebuildAll, List.flatMap_cons, List.flatMap_cons, ih.1, ihs ih.2]

/-- The declarations in a query, each in front of those inside it. -/
def Query.entities (q : Query) : List Entity :=
  q.queries.map Query.entity

/-- Constraints that add no declarations leave some of those that are there. -/
theorem Query.entities_applyAll {settings : Settings} {q : Query} {cs : List Constraint}
    (h : ∀ i, (changesAt q cs i).DeclareNothing) :
    (q.applyAll settings cs).entities.Sublist q.entities := by
  have hchange : ∀ i e c,
      ((changesAt q cs i).apply settings e c).entities.Sublist c.entities :=
    fun i e c => Changes.entities_apply (h i) e c
  have hrebuild := Condition.entities_rebuild hchange 1 q.condition
  exact ((hchange 0 q.entity _).trans hrebuild).cons_cons q.entity

/-- Constraints that add no declarations, and delete nothing, leave those that are there. -/
theorem Query.entities_applyAll_eq {settings : Settings} {q : Query} {cs : List Constraint}
    (h : ∀ i, (changesAt q cs i).DeclareNothing) (hdelete : ∀ c ∈ cs, c.action ≠ .delete) :
    (q.applyAll settings cs).entities = q.entities := by
  have hchange : ∀ i e c, ((changesAt q cs i).apply settings e c).entities = c.entities := by
    intro i e c
    have hnone : (changesAt q cs i).deletions = [] := by
      rw [changesAt, Changes.ofList, List.filter_eq_nil_iff]
      intro b hb
      simpa using hdelete b (List.mem_of_mem_filter hb)
    rw [Changes.entities_apply_eq (h i), hnone]
    rfl
  have hrebuild := Condition.entities_rebuild_eq hchange 1 q.condition
  show q.entity :: ((changesAt q cs 0).apply settings q.entity _).entities
    = q.entity :: q.condition.entities
  rw [hchange, hrebuild]

end NodeQuery
