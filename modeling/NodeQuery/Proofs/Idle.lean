/-
Constraints that have nothing to act on.

A deletion or an edit that selects no leaf of the condition at which it is aimed, an edit without a
value, and an addition that describes no condition, or one that can not be read: each of them leaves
the condition as it is. So do any number of them, as each finds what the first one found, and so
the query stays as it is when it is built anew. A merge of such constraints only writes the query.

* `Constraint.isIdle`: whether a constraint has nothing to act on in a condition.
* `Changes.apply_of_isIdle`: idle constraints leave a condition as it is.
* `Query.applyAll_of_isIdle`: idle constraints leave a query as it is.
* `roundTrip_eq_merge`: a merge of idle constraints.
-/
import NodeQuery.Proofs.Removing
import NodeQuery.Proofs.Updating

namespace NodeQuery

/-- Whether the constraint has nothing to act on in the condition at which it is aimed: no leaf to
delete, no comparison to edit or no value for it, and no condition to add that can be read. -/
def Constraint.isIdle (x : Constraint) (c : Condition) : Bool :=
  match x.action with
  | .delete => c.atomics.all fun a => !x.selector.selects a
  | .edit => x.valueText?.isNone || c.atomics.all fun a =>
    match a with
    | .value m => !x.selector.selectsValue m
    | .relation .. => true
  | .add => x.condition?.all fun new => !new.isReadable

namespace Changes

/-! ### One condition -/

section Condition

variable {c : Condition} {x : Constraint}

theorem delete_of_isIdle (e : Entity) (hc : c.IsPaired) (hx : x.action = .delete)
    (h : x.isIdle c = true) : delete e c x = c := by
  have hnone : ∀ a ∈ c.atomics, x.selector.selects a = false := by
    simpa [Constraint.isIdle, hx] using h
  rw [delete, Condition.remove_of_forall hc hnone, Option.getD_some]

theorem edit_of_isIdle (hx : x.action = .edit) (h : x.isIdle c = true) : edit c x = c := by
  rw [edit]
  cases hvalue : x.valueText? with
  | none => rfl
  | some v =>
    have hnone : ∀ m, .value m ∈ c.atomics → x.selector.selectsValue m = false := by
      intro m hm
      simp only [Constraint.isIdle, hx, hvalue, Option.isNone_some, Bool.false_or,
        List.all_eq_true] at h
      simpa using h (.value m) hm
    have hsame : c.update x.selector v = c := by
      rw [Condition.update, Condition.update?_eq_none_iff.mpr hnone, Option.getD_none]
    simp only [hsame, ite_self]

theorem add_of_isIdle (settings : Settings) (e : Entity) (hx : x.action = .add)
    (h : x.isIdle c = true) : add settings e c x = c := by
  rw [add]
  cases hnew : x.condition? with
  | none => rfl
  | some new =>
    have hunread : new.isReadable = false := by simpa [Constraint.isIdle, hx, hnew] using h
    simp [hunread]

end Condition

/-- Idle constraints leave a condition as it is, each after the others. -/
theorem apply_of_isIdle (settings : Settings) (e : Entity) {c : Condition} (hc : c.IsPaired)
    {cs : List Constraint} (h : ∀ x ∈ cs, x.isIdle c = true) :
    (ofList cs).apply settings e c = c := by
  have hfold : ∀ (action : Constraint.Action) (step : Condition → Constraint → Condition),
      (∀ x, x.action = action → x.isIdle c = true → step c x = c) →
      (cs.filter (·.action = action)).foldl step c = c := by
    intro action step hstep
    refine List.foldlRecOn (motive := (· = c)) _ _ rfl fun d hd x hx => ?_
    obtain ⟨hmem, haction⟩ := List.mem_filter.mp hx
    rw [hd]
    exact hstep x (of_decide_eq_true haction) (h x hmem)
  rw [apply, ofList]
  simp only
  rw [hfold .delete (delete e) fun x => delete_of_isIdle e hc,
    hfold .edit edit fun x => edit_of_isIdle,
    hfold .add (add settings e) fun x => add_of_isIdle settings e]

end Changes

/-! ### A query -/

/-- A query stays as it is if the condition of each query in it does. -/
theorem Query.rebuild_of_fixed {change : Nat → Entity → Condition → Condition} {q : Query}
    (h : ∀ i p, q.queries[i]? = some p → change i p.entity p.condition = p.condition) :
    q.rebuild change = q := by
  have hinner : q.condition.rebuild change 1 = q.condition := by
    refine Condition.rebuild_of_fixed fun i p hp => ?_
    rw [Nat.add_comm]
    exact h (i + 1) p hp
  rw [rebuild, hinner, h 0 q rfl]

section Merge

variable {source : String} {q : Query} (settings : Settings) {cs : List Constraint}

/-- Idle constraints leave a query as it is. -/
theorem Query.applyAll_of_isIdle (hq : q.IsPlain)
    (hidle : ∀ c ∈ cs, ∀ i p, target? q c = some i → q.queries[i]? = some p →
      c.isIdle p.condition = true) : q.applyAll settings cs = q := by
  refine rebuild_of_fixed fun i p hp => ?_
  have hpaired := (isPlain_of_mem_queries hq p (List.mem_of_getElem? hp)).2.isPaired
  refine Changes.apply_of_isIdle settings p.entity hpaired fun c hc => ?_
  obtain ⟨hmem, htarget⟩ := List.mem_filter.mp hc
  exact hidle c hmem i p (of_decide_eq_true htarget) hp

/-- If each of the constraints has nothing to act on in the condition of the last query that
declares its alias, and if there is such a query for one of them, then what is merged is the text
written anew. -/
theorem roundTrip_eq_merge (hq : parse source = .ok q)
    (haim : ∃ c ∈ cs, ∃ i, q.LastDeclares c.leadingAlias i)
    (hidle : ∀ c ∈ cs, ∀ i p, q.LastDeclares c.leadingAlias i → q.queries[i]? = some p →
      c.isIdle p.condition = true) :
    roundTrip source = .ok (merge settings source cs) := by
  obtain ⟨hplain, -, -⟩ := tidy_of_parse hq
  have happly : q.applyAll settings cs = q :=
    Query.applyAll_of_isIdle settings hplain fun c hc i p htarget hp =>
      hidle c hc i p ((target?_eq_some_iff_of_parse hq).mp htarget) hp
  have hmerge : merge settings source cs = (q.applyAll settings cs).render :=
    merge_of_exists_lastDeclares hq settings haim
  rw [hmerge, happly, roundTrip, hq]
  rfl

end Merge

/-- Two deletions and an edit that select nothing, of which one asks for another former value and
one for a comparison where there is a relation, an edit without a value, an addition of which the
operator is not known, and one that can not be read. -/
theorem roundTrip_eq_merge_nested :
    let source := "functionCall fc where and(fc.name==x,fc.a contain literal y where y.b == 1);"
    let cs : List Constraint := [
      { path := "y.b", operator? := some "==", former? := some "2", action := .delete },
      { path := "fc.b", action := .delete },
      { path := "fc.a", operator? := some "contain", value? := some "2", action := .edit },
      { path := "fc.name", value? := some " ", action := .edit },
      { path := "y.c", operator? := some "~=", value? := some "2", action := .add },
      { path := "fc.or", operator? := some "==", value? := some "2", action := .add }]
    (∃ q, parse source = .ok q ∧ (∃ c ∈ cs, ∃ i, q.LastDeclares c.leadingAlias i)
        ∧ ∀ c ∈ cs, ∀ i p, q.LastDeclares c.leadingAlias i → q.queries[i]? = some p →
          c.isIdle p.condition = true)
      ∧ roundTrip source = .ok (merge {} source cs)
      ∧ merge {} source cs
        = "functionCall fc where and(fc.name == x, fc.a contain literal y where y.b == 1 ;) ;" := by
  intro source cs
  obtain ⟨q, hq⟩ := Except.isOk_iff.mp (by decide +kernel : (parse source).isOk = true)
  have hfacts : ((parse source).toOption.all fun q =>
      (cs.any fun c => (target? q c).isSome) && cs.all fun c => (target? q c).all fun i =>
        (q.queries[i]?).all fun p => c.isIdle p.condition) = true := by
    decide +kernel
  rw [hq] at hfacts
  simp only [Except.toOption, Option.all_some, Bool.and_eq_true, List.any_eq_true,
    List.all_eq_true] at hfacts
  obtain ⟨⟨c, hc, haim⟩, hall⟩ := hfacts
  obtain ⟨i, hi⟩ := Option.isSome_iff_exists.mp haim
  have hlast : ∃ c ∈ cs, ∃ i, q.LastDeclares c.leadingAlias i :=
    ⟨c, hc, i, (target?_eq_some_iff_of_parse hq).mp hi⟩
  have hidle : ∀ c ∈ cs, ∀ i p, q.LastDeclares c.leadingAlias i → q.queries[i]? = some p →
      c.isIdle p.condition = true := by
    intro c hc i p hi hp
    have htarget := hall c hc
    rw [(target?_eq_some_iff_of_parse hq).mpr hi, Option.all_some, hp, Option.all_some] at htarget
    exact htarget
  exact ⟨⟨q, hq, hlast, hidle⟩, roundTrip_eq_merge {} hq hlast hidle, by decide +kernel⟩

end NodeQuery
