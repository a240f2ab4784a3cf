/-
An addition, and the deletion that is to undo it.

A comparison that is added to a condition becomes its last leaf, and the deletion of this leaf
leaves the condition as it was. But the deletion asks for the value as it was given, and what is
read of the merged text is the value as it was written. The two are taken for the same if the value
is written as it is, or if nothing in it is escaped between the quotes with which it is written. A
value in which a character is escaped is not found again, and the deletion does nothing.

* `Literal.isFoundAgain`: the values that are found again once they are written.
* `Condition.remove_join`: what is left of a condition after the removal of what was joined with it.
* `Condition.KeepsShape.withConditionAt`: one condition in the place of another, and values changed.
* `Constraint.AddsComparison`, `Constraint.Undoes`: the addition and the deletion.
* `Changes.delete_canonical_add`: the deletion in what is written of the condition.
* `merge_merge_iff`: when the deletion undoes the addition.
-/
import NodeQuery.Proofs.Adding
import NodeQuery.Proofs.Batching
import NodeQuery.Proofs.Locality
import NodeQuery.Proofs.OutsideIn
import NodeQuery.Proofs.Quoting
import NodeQuery.Proofs.Removing

namespace NodeQuery

/-! ### Values that are found again -/

namespace Literal

/-- Whether a value is taken for what is written for it: because it is written as it is, or because
none of its characters is escaped between quotes. -/
def isFoundAgain (v : String) : Bool :=
  escape v = v || v.toList.all fun c => quoteChar c = [c]

theorem escape_eq_quote {v : String} (h : escape v ≠ v) :
    escape v = quote v ∧ isQuoted v = false := by
  rw [escape] at h ⊢
  split_ifs at h ⊢ with hplain
  · exact absurd rfl h
  · simp only [Bool.or_eq_true, not_or, Bool.not_eq_true] at hplain
    exact ⟨rfl, hplain.1.1⟩

/-- A value that is asked for as it was given is what is written for it, or is not. -/
theorem selectsText_escape {raw v : String} (hraw : Text.trim raw = v) :
    Selector.selectsText (some raw) (escape v) = isFoundAgain v := by
  rw [isFoundAgain, Selector.selectsText, Option.map_some, hraw]
  simp only [escape_escape]
  by_cases h : escape v = v
  · simp [h]
  · obtain ⟨hquote, hv⟩ := escape_eq_quote h
    have hunquote : unquote v = v := by simp [unquote, hv]
    have hinner : unquote (escape v) = unquote v ↔ ∀ c ∈ v.toList, quoteChar c = [c] := by
      rw [hunquote, hquote, unquote_quote, ← flatMap_quoteChar_eq_iff, ← String.toList_inj,
        String.toList_ofList]
    rw [Bool.eq_iff_iff]
    simp [h, hinner]

end Literal

/-! ### Removal of what was joined -/

namespace Condition

variable {s : Selector} {P : Attribute → Prop}

theorem mem_atomics_group {k : Connective} {cs : List Condition} {c : Condition} (hc : c ∈ cs)
    {a : Atomic} (ha : a ∈ c.atomics) : a ∈ (group k cs).atomics := by
  rw [atomics, atomicsOfAll_eq_flatMap]
  exact List.mem_flatMap.mpr ⟨c, hc, ha⟩

theorem removeFromAll_append {cs : List Condition} (hcs : ∀ c ∈ cs, c.remove s = (some c, false))
    (ds : List Condition) :
    removeFromAll s (cs ++ ds) = (cs ++ (removeFromAll s ds).1, (removeFromAll s ds).2) := by
  induction cs with
  | nil => rfl
  | cons c cs ih =>
    rw [List.forall_mem_cons] at hcs
    rw [List.cons_append, removeFromAll, hcs.1, ih hcs.2]
    rfl

/-- If the first thing selected is what was joined with a condition, its removal leaves the
condition. -/
theorem remove_join {c new : Condition} (h : c.WellFormed P)
    (hs : ∀ a ∈ c.atomics, s.selects a = false) (hnew : new.remove s = (none, true))
    (k : Connective) : (join k (some c) new).remove s = (some c, true) := by
  have hc := remove_of_forall h.isPaired hs
  have hpair : (group k [c, new]).remove s = (some c, true) := by
    simp [remove, removeFromAll, hc, hnew, regroup]
  cases c with
  | value m => exact hpair
  | relation a op e c spans => exact hpair
  | negation c => exact hpair
  | group l cs =>
    by_cases hl : l = k
    · have hcs : ∀ c ∈ cs, c.remove s = (some c, false) := by
        intro c hc
        exact remove_of_forall (allWellFormed_iff.mp h.2 c hc).isPaired fun a ha =>
          hs a (mem_atomics_group hc ha)
      rw [join, if_pos hl, remove, removeFromAll_append hcs, hl]
      simp [removeFromAll, hnew, regroup_of_two_le h.1]
    · rw [join, if_neg hl]
      exact hpair

theorem atomics_join (k : Connective) (existing : Option Condition) (new : Condition) :
    (join k existing new).atomics = existing.toList.flatMap atomics ++ new.atomics := by
  rw [← map_atomic_leaves, leaves_join, List.map_append, map_atomic_leaves, List.map_flatMap]
  exact congrArg (· ++ new.atomics) (List.flatMap_congr fun c _ => map_atomic_leaves c)

end Condition

/-! ### One condition in the place of another, twice -/

namespace Condition

section Places

variable {d d' : Condition}

theorem withConditionAt_withConditionAt {c : Condition} {i : Nat} (h : i < c.queries.length) :
    withConditionAt d' i (withConditionAt d i c) = withConditionAt d' i c := by
  induction c generalizing i with
  | value m => rfl
  | relation a op e c spans ih =>
    cases i with
    | zero => rfl
    | succ j =>
      rw [queries, List.length_cons, Nat.add_lt_add_iff_right] at h
      rw [withConditionAt, withConditionAt, withConditionAt, ih h]
  | negation c ih => rw [withConditionAt, withConditionAt, withConditionAt, ih h]
  | group k cs ih =>
    have key : ∀ i, i < (queriesOfAll cs).length →
        withConditionInAll d' i (withConditionInAll d i cs) = withConditionInAll d' i cs := by
      clear h
      induction cs with
      | nil => exact fun _ _ => rfl
      | cons c cs ihs =>
        rw [List.forall_mem_cons] at ih
        intro i h
        rw [queriesOfAll, List.length_append] at h
        rw [withConditionInAll]
        split_ifs with hi
        · -- the query that is given a condition is still there
          have hget := getElem?_queries_withConditionAt (d := d) (List.getElem?_eq_getElem hi)
          obtain ⟨hlt, -⟩ := List.getElem?_eq_some_iff.mp hget
          rw [withConditionInAll, withConditionInAll, if_pos hi, if_pos hlt, ih.1 hi]
        · rw [withConditionInAll, withConditionInAll, if_neg hi, if_neg hi,
            ihs ih.2 _ (by omega)]
    rw [withConditionAt, withConditionAt, withConditionAt, key i h]

theorem KeepsShape.withConditionAt {g : Condition → Condition} (hg : KeepsShape g) (i : Nat)
    (c : Condition) : g (withConditionAt d i c) = withConditionAt (g d) i (g c) := by
  induction c generalizing i with
  | value m =>
    obtain ⟨v, hv⟩ := hg.value m
    rw [Condition.withConditionAt, hv, Condition.withConditionAt]
  | relation a op e c spans ih =>
    cases i with
    | zero => rw [Condition.withConditionAt, hg.relation, hg.relation, Condition.withConditionAt]
    | succ j =>
      rw [Condition.withConditionAt, hg.relation, hg.relation, Condition.withConditionAt, ih]
  | negation c ih =>
    rw [Condition.withConditionAt, hg.negation, hg.negation, Condition.withConditionAt, ih]
  | group k cs ih =>
    have key : ∀ i, (withConditionInAll d i cs).map g = withConditionInAll (g d) i (cs.map g) := by
      induction cs with
      | nil => exact fun _ => rfl
      | cons c cs ihs =>
        rw [List.forall_mem_cons] at ih
        intro i
        rw [withConditionInAll, List.map_cons, withConditionInAll, hg.length_queries]
        split_ifs
        · rw [List.map_cons, ih.1]
        · rw [List.map_cons, ihs ih.2]
    rw [Condition.withConditionAt, hg.group, hg.group, Condition.withConditionAt, key]

end Places

end Condition

namespace Query

variable {d d' : Condition} {i : Nat} {q : Query}

theorem withConditionAt_withConditionAt (h : i < q.queries.length) :
    (q.withConditionAt d i).withConditionAt d' i = q.withConditionAt d' i := by
  cases i with
  | zero => rfl
  | succ j =>
    rw [queries, List.length_cons, Nat.add_lt_add_iff_right] at h
    rw [withConditionAt, withConditionAt, withConditionAt,
      Condition.withConditionAt_withConditionAt h]

theorem canonical_withConditionAt (d : Condition) (i : Nat) (q : Query) :
    (q.withConditionAt d i).canonical = q.canonical.withConditionAt d.canonical i := by
  cases i with
  | zero => rfl
  | succ j =>
    rw [withConditionAt, canonical, Condition.keepsShape_canonical.withConditionAt]
    rfl

theorem eraseSpans_withConditionAt (d : Condition) (i : Nat) (q : Query) :
    (q.withConditionAt d i).eraseSpans = q.eraseSpans.withConditionAt d.eraseSpans i := by
  cases i with
  | zero => rfl
  | succ j =>
    rw [withConditionAt, eraseSpans, Condition.keepsShape_eraseSpans.withConditionAt]
    rfl

end Query

/-! ### The addition and the deletion -/

theorem RelOp.ofText?_eq_none {text : String} {op : ValueOp} (h : ValueOp.ofText? text = some op) :
    RelOp.ofText? text = none := by
  have hop : Text.sameWord (Text.trim text) op.spelling = true := by simpa using List.find?_some h
  rw [ofText?, List.find?_eq_none]
  intro r _ hr
  simp only [Text.sameWord, decide_eq_true_eq] at hop hr
  rw [hop] at hr
  revert hr
  cases op <;> cases r <;> decide

namespace Constraint

/-- The constraint adds a comparison with the value `v`, at a path that is made of names. -/
structure AddsComparison (x : Constraint) (v : String) : Prop where
  action : x.action = .add
  isDotted : x.IsDotted
  operator : ∃ text ∈ x.operatorText?, (ValueOp.ofText? text).isSome = true
  value : x.valueText? = some v

/-- The constraint `y` deletes what `x` adds: it has the same path and the same operator, and asks
for the value of `x` as the former one. -/
structure Undoes (y x : Constraint) : Prop where
  action : y.action = .delete
  path : y.path = x.path
  operator : y.operator? = x.operator?
  former : y.former? = x.value?

variable {x y : Constraint} {v : String}

/-- The comparison that is added, and that it is selected if its value is found again. -/
theorem AddsComparison.exists_comparison (hx : x.AddsComparison v) :
    ∃ (a : Attribute) (op : ValueOp), a.path = x.path
      ∧ x.condition? = some (x.signed (.value ⟨a, op, v⟩))
      ∧ ∀ y : Constraint, y.Undoes x →
        y.selector.selectsValue ⟨a, op, Literal.escape v⟩ = Literal.isFoundAgain v := by
  obtain ⟨a, ha, hpath⟩ := hx.isDotted
  obtain ⟨text, htext, hop⟩ := hx.operator
  obtain ⟨op, hop⟩ := Option.isSome_iff_exists.mp hop
  have hsubject : Attribute.ofPath? (Text.trim x.path) = some a := by
    rw [hpath, Attribute.trim_path ha,
      Attribute.ofPath?_path (Attribute.isDotless_of_isPlain ha)]
  refine ⟨a, op, hpath.symm, ?_, fun y hy => ?_⟩
  · rw [condition?, positiveCondition?, hsubject, htext, hx.value]
    simp [RelOp.ofText?_eq_none hop, hop, signed]
  · obtain ⟨raw, hraw, htrim⟩ := Option.bind_eq_some_iff.mp hx.value
    have hselects : y.selector.selectsOperator op.spelling = true := by
      have hfound := List.find?_some hop
      have hoperator : y.operatorText? = some text := by
        rw [operatorText?, hy.operator]
        exact htext
      simp only [Text.sameWord, decide_eq_true_eq] at hfound
      simp [selector, Selector.selectsOperator, hoperator, Text.sameWord, hfound]
    have hsame : a.path = y.selector.path := by
      rw [selector, hy.path, hpath, Attribute.trim_path ha]
    have hvalue : Selector.selectsText y.selector.former? (Literal.escape v)
        = Literal.isFoundAgain v := by
      rw [selector, hy.former, hraw]
      exact Literal.selectsText_escape (Text.trim_eq_of_trim? htrim)
    rw [Selector.selectsValue, hselects, hvalue, ← hsame]
    simp

theorem AddsComparison.addsValue (hx : x.AddsComparison v) : x.AddsValue := by
  refine ⟨hx.action, ?_⟩
  obtain ⟨text, htext, hop⟩ := hx.operator
  obtain ⟨op, hop⟩ := Option.isSome_iff_exists.mp hop
  intro other hother
  rw [Option.mem_unique hother htext]
  exact RelOp.ofText?_eq_none hop

/-- The comparison is one that can be read, and is not left out. -/
theorem AddsComparison.isReadable (hx : x.AddsComparison v) {new : Condition}
    (hnew : x.condition? = some new) : new.isReadable = true := by
  have hplain := isPlain_of_isDotted hx.isDotted hnew
  refine Condition.isReadable_of_opens (hplain.mono fun _ => Attribute.opens_of_isPlain) ?_
  rw [Condition.levels_of_isPlain hplain]
  obtain ⟨a, op, -, hcondition, -⟩ := hx.exists_comparison
  rw [← Option.some.inj (hcondition.symm.trans hnew), signed]
  cases x.isNegative with
  | false => exact (by decide : 1 ≤ Parser.maxNesting)
  | true => exact (by decide : 2 ≤ Parser.maxNesting)

end Constraint

section Undone

variable {settings : Settings} {e : Entity} {c : Condition} {x y : Constraint} {v : String}
  {P : Attribute → Prop}

theorem Condition.wellFormed_join {k : Connective} {existing : Option Condition} {new : Condition}
    (h : ∀ c ∈ existing, c.WellFormed P) (hnew : new.WellFormed P) :
    (join k existing new).WellFormed P := by
  have hmeets : (join k existing new).Meets (.wellFormed P) ⟨"", none⟩ :=
    meets_join (fun c hc => meets_wellFormed_iff.mpr (h c hc)) (meets_wellFormed_iff.mpr hnew)
  exact meets_wellFormed_iff.mp hmeets

/-- A selector selects leaves with its path only. -/
theorem Selector.selects_eq_false {s : Selector} {a : Atomic} (h : a.subject.path ≠ s.path) :
    s.selects a = false := by
  cases a with
  | value m =>
    have hm : m.subject.path ≠ s.path := h
    simp [selects, selectsValue, hm]
  | relation b op q =>
    have hb : b.path ≠ s.path := h
    simp [selects, hb]

/-- What is written for the comparison that is added is selected if its value is found again. -/
theorem Constraint.AddsComparison.selects_canonical (hx : x.AddsComparison v) (hy : y.Undoes x)
    {new : Condition} (hnew : x.condition? = some new) :
    (∀ a ∈ new.canonical.atomics, y.selector.selects a = Literal.isFoundAgain v)
      ∧ (Literal.isFoundAgain v = true → new.canonical.remove y.selector = (none, true)) := by
  obtain ⟨a, op, -, hcondition, hselects⟩ := hx.exists_comparison
  rw [← Option.some.inj (hcondition.symm.trans hnew), signed]
  have hleaf := hselects y hy
  cases x.isNegative with
  | false =>
    refine ⟨by simpa [Condition.atomics, Selector.selects] using hleaf, fun hfound => ?_⟩
    simp [Condition.remove, Selector.selects, hleaf, hfound]
  | true =>
    refine ⟨by simpa [Condition.atomics, Selector.selects] using hleaf, fun hfound => ?_⟩
    simp [Condition.remove, Selector.selects, hleaf, hfound]

theorem Changes.canonical_add_eq (hx : x.AddsComparison v) {new : Condition}
    (hnew : x.condition? = some new) :
    (add settings e c x).canonical = Condition.join settings.combine
      (if c.isPlaceholder e then none else some c.canonical) new.canonical := by
  rw [add, hnew]
  simp only [hx.isReadable hnew, if_true]
  rw [Condition.canonical_join]
  split_ifs <;> rfl

/-- What is written of the leaves of which none has the path is not selected by the deletion. -/
theorem Constraint.Undoes.selects_eq_false (hx : x.AddsComparison v) (hy : y.Undoes x)
    (hpath : ∀ a ∈ c.atomics, a.subject.path ≠ x.path) :
    ∀ a ∈ c.canonical.atomics, y.selector.selects a = false := by
  have hselector : y.selector.path = x.path := by
    obtain ⟨b, hb, hbpath⟩ := hx.isDotted
    rw [selector, hy.path, hbpath, Attribute.trim_path hb]
  intro a ha
  refine Selector.selects_eq_false ?_
  rw [hselector]
  exact (Condition.keepsShape_canonical.forall_atomics (P := (·.path ≠ x.path))).mpr hpath a ha

/-- In what is written of a condition after the addition, the deletion leaves what is written of
the condition before it, or leaves all, as the value is found again or not. -/
theorem Changes.delete_canonical_add (he : e.isPlain = true) (hc : c.IsPlain)
    (hx : x.AddsComparison v) (hy : y.Undoes x)
    (hpath : ∀ a ∈ c.atomics, a.subject.path ≠ x.path) :
    delete e (add settings e c x).canonical y
      = if Literal.isFoundAgain v then c.canonical else (add settings e c x).canonical := by
  obtain ⟨a, op, -, hnew, -⟩ := hx.exists_comparison
  obtain ⟨hselects, hremove⟩ := hx.selects_canonical hy hnew
  have hnone := hy.selects_eq_false hx hpath
  have hplain : c.canonical.IsPlain := Condition.keepsShape_canonical.wellFormed.mpr hc
  have hnewplain : (x.signed (.value ⟨a, op, v⟩)).canonical.IsPlain :=
    Condition.keepsShape_canonical.wellFormed.mpr
      (Constraint.isPlain_of_isDotted hx.isDotted hnew)
  rw [delete, canonical_add_eq hx hnew]
  by_cases hfound : Literal.isFoundAgain v = true
  · rw [if_pos hfound]
    split_ifs with hplaceholder
    · rw [Condition.join, hremove hfound, Condition.isPlaceholder_iff.mp hplaceholder,
        Condition.canonical_placeholder he]
      rfl
    · rw [Condition.remove_join hplain hnone (hremove hfound)]
      rfl
  · rw [if_neg hfound]
    -- the new leaf is not selected either, alone or behind the others
    have hnewnone : ∀ b ∈ (x.signed (.value ⟨a, op, v⟩)).canonical.atomics,
        y.selector.selects b = false := by
      intro b hb
      rw [hselects b hb]
      exact Bool.not_eq_true _ ▸ hfound
    split_ifs
    · rw [Condition.join, Condition.remove_of_forall hnewplain.isPaired hnewnone]
      rfl
    · have hwf := Condition.wellFormed_join (k := settings.combine)
        (fun d hd => Option.some.inj hd ▸ hplain) hnewplain
      rw [Condition.remove_of_forall hwf.isPaired]
      · rfl
      · simpa [Condition.atomics_join, or_imp, forall_and] using ⟨hnone, hnewnone⟩

/-- The comparison that is added is one of the leaves. -/
theorem Changes.exists_atomic_canonical_add (settings : Settings) (e : Entity) (c : Condition)
    (hx : x.AddsComparison v) :
    ∃ a ∈ (add settings e c x).canonical.atomics, a.subject.path = x.path := by
  obtain ⟨a, op, ha, hnew, -⟩ := hx.exists_comparison
  refine ⟨.value ⟨a, op, Literal.escape v⟩, ?_, ha⟩
  rw [canonical_add_eq hx hnew, Condition.atomics_join, List.mem_append]
  right
  rw [Constraint.signed]
  cases x.isNegative with
  | false => exact List.mem_singleton_self _
  | true => exact List.mem_singleton_self _

end Undone

/-! ### The deletion merged after the addition -/

section Merge

variable {settings : Settings} {source : String} {q p r : Query} {k : Nat} {x y : Constraint}
  {v : String}

/-- A constraint for one query is applied to its condition. -/
theorem Query.applyAll_of_target? (settings : Settings) (htarget : target? q x = some k)
    (hp : q.queries[k]? = some p) :
    q.applyAll settings [x] = q.withConditionAt
      ((Changes.ofList [x]).apply settings p.entity p.condition) k := by
  have hchanges : changesAt q [x] k = Changes.ofList [x] := by
    rw [changesAt, List.filter_eq_self.mpr (by simpa using htarget)]
  rw [← hchanges]
  refine applyAll_of_forall_target? settings hp fun c hc i hi => ?_
  rw [List.mem_singleton.mp hc, htarget] at hi
  exact (Option.some.inj hi).symm

theorem merge_of_target? (hq : parse source = .ok q) (htarget : target? q x = some k) :
    merge settings source [x] = (q.applyAll settings [x]).render :=
  merge_of_exists_ne_none hq (by simp [htarget])

/-- The query with some number in a query that is read of what was written for another one. -/
theorem Query.exists_getElem?_of_eraseSpans {d : Condition} (hp : q.queries[k]? = some p)
    (h : r.eraseSpans = (q.withConditionAt d k).canonical) :
    ∃ s, r.queries[k]? = some s ∧ s.entity = p.entity ∧ s.condition.eraseSpans = d.canonical := by
  have hqueries : (r.queries[k]?).map eraseSpans = some ⟨p.entity, d.canonical, {}⟩ := by
    rw [← List.getElem?_map, ← queries_eraseSpans, h, queries_canonical, List.getElem?_map,
      getElem?_queries_withConditionAt hp]
    rfl
  obtain ⟨s, hs, herase⟩ := Option.map_eq_some_iff.mp hqueries
  obtain ⟨hentity, hcondition⟩ := Query.mk.inj herase
  exact ⟨s, hs, hentity, hcondition.1⟩

theorem Query.applyAll_add (hx : x.AddsComparison v) (htarget : target? q x = some k)
    (hp : q.queries[k]? = some p) :
    q.applyAll settings [x]
      = q.withConditionAt (Changes.add settings p.entity p.condition x) k := by
  rw [applyAll_of_target? settings htarget hp, Changes.ofList, Changes.apply]
  simp [hx.action]

theorem Query.applyAll_delete (hy : y.action = .delete) (htarget : target? q y = some k)
    (hp : q.queries[k]? = some p) :
    q.applyAll settings [y] = q.withConditionAt (Changes.delete p.entity p.condition y) k := by
  rw [applyAll_of_target? settings htarget hp, Changes.ofList, Changes.apply]
  simp [hy]

theorem Constraint.Undoes.target? (hy : y.Undoes x) (q : Query) : target? q y = target? q x := by
  rw [NodeQuery.target?, NodeQuery.target?, leadingAlias, leadingAlias, hy.path]

theorem Query.isPlain_applyAll_add (hq : q.IsPlain) (hx : x.AddsComparison v) :
    (q.applyAll settings [x]).IsPlain :=
  isPlain_applyAll settings hq (by simpa using hx.isDotted)

/-- The deletion is aimed at the same query in what is read after the addition. -/
theorem Query.target?_of_parse_add (hq : q.IsPlain) (hx : x.AddsComparison v) (hy : y.Undoes x)
    (hread : parse (q.applyAll settings [x]).render = .ok r) : target? r y = target? q x := by
  have hentities : r.entities = q.entities :=
    (entities_of_parse_render (isPlain_applyAll_add hq hx) hread).trans
      (entities_applyAll_of_addsValue (by simpa using hx.addsValue))
  rw [hy.target?, target?_of_entities_eq hentities]

/-- What is left after the deletion in what is read of a query after the addition. -/
theorem Query.eraseSpans_applyAll_delete (hq : q.IsPlain) (htarget : target? q x = some k)
    (hp : q.queries[k]? = some p) (hpath : ∀ a ∈ p.condition.atomics, a.subject.path ≠ x.path)
    (hx : x.AddsComparison v) (hy : y.Undoes x)
    (hread : parse (q.applyAll settings [x]).render = .ok r) :
    (r.applyAll settings [y]).eraseSpans = if Literal.isFoundAgain v then q.canonical
      else (q.applyAll settings [x]).canonical := by
  have hagain := (target?_of_parse_add hq hx hy hread).trans htarget
  have herase := canonical_of_parse_render (isPlain_applyAll_add hq hx) hread
  rw [applyAll_add hx htarget hp] at herase ⊢
  obtain ⟨s, hs, hentity, hcondition⟩ := exists_getElem?_of_eraseSpans hp herase
  have hplain : p.IsPlain := isPlain_of_mem_queries hq p (List.mem_of_getElem? hp)
  have hcanonical : q.canonical.queries[k]? = some p.canonical := by
    rw [queries_canonical, List.getElem?_map, hp]
    rfl
  obtain ⟨hlt, -⟩ := List.getElem?_eq_some_iff.mp hcanonical
  -- the deletion does not look into nested queries, and neither does it see where they stand
  have hdelete : (Changes.delete s.entity s.condition y).eraseSpans
      = Changes.delete p.entity (Changes.add settings p.entity p.condition x).canonical y := by
    rw [← Changes.delete_actsInside Condition.actsInside_eraseSpans, hcondition, hentity]
  rw [applyAll_delete hy.action hagain hs, eraseSpans_withConditionAt, hdelete, herase,
    canonical_withConditionAt, withConditionAt_withConditionAt hlt,
    Changes.delete_canonical_add hplain.1 hplain.2 hx hy hpath]
  split_ifs
  · exact withConditionAt_self hcanonical
  · rfl

section Text

variable (hq : parse source = .ok q) (hround : roundTrip source = .ok source)
  (htarget : target? q x = some k) (hp : q.queries[k]? = some p)
  (hpath : ∀ a ∈ p.condition.atomics, a.subject.path ≠ x.path) (hx : x.AddsComparison v)

include hq htarget hp hpath hx

/-- The comparison that was added is a difference. -/
theorem merge_add_ne (hr : parse (merge settings source [x]) = .ok r) :
    merge settings source [x] ≠ source := by
  obtain ⟨hplain, -, -⟩ := tidy_of_parse hq
  intro hsame
  have hread := hr
  rw [merge_of_target? hq htarget] at hread
  rw [hsame, hq] at hr
  obtain rfl := Except.ok.inj hr
  have herase := Query.canonical_of_parse_render (Query.isPlain_applyAll_add hplain hx) hread
  rw [Query.applyAll_add hx htarget hp] at herase
  obtain ⟨s, hs, -, hcondition⟩ := Query.exists_getElem?_of_eraseSpans hp herase
  obtain rfl := Option.some.inj (hp.symm.trans hs)
  obtain ⟨a, ha, hapath⟩ :=
    Changes.exists_atomic_canonical_add settings p.entity p.condition hx
  rw [← hcondition] at ha
  exact (Condition.keepsShape_eraseSpans.forall_atomics (P := (·.path ≠ x.path))).mpr hpath a ha
    hapath

include hround in
/-- The text after the deletion. -/
theorem merge_merge_delete (hy : y.Undoes x)
    (hr : parse (merge settings source [x]) = .ok r) :
    merge settings (merge settings source [x]) [y]
      = if Literal.isFoundAgain v then source else merge settings source [x] := by
  obtain ⟨hplain, -, -⟩ := tidy_of_parse hq
  have hfirst : (q.applyAll settings [x]).IsPlain := Query.isPlain_applyAll_add hplain hx
  have hread : parse (q.applyAll settings [x]).render = .ok r := by
    rwa [← merge_of_target? hq htarget]
  have hagain := (Query.target?_of_parse_add hplain hx hy hread).trans htarget
  rw [merge_of_target? hr hagain, ← Query.render_eraseSpans,
    Query.eraseSpans_applyAll_delete hplain htarget hp hpath hx hy hread]
  split_ifs
  · rw [roundTrip, hq] at hround
    exact (Query.render_canonical_of_isPlain hplain).trans (Except.ok.inj hround)
  · rw [Query.render_canonical_of_isPlain hfirst, merge_of_target? hq htarget]

end Text

/-- A deletion that asks for what an addition has added, at a path of which no leaf speaks before,
undoes it just when the value is found again; if it is not, the deletion changes nothing. -/
theorem merge_merge_iff (hq : parse source = .ok q) (hround : roundTrip source = .ok source)
    (htarget : target? q x = some k) (hp : q.queries[k]? = some p)
    (hpath : ∀ a ∈ p.condition.atomics, a.subject.path ≠ x.path)
    (hx : x.AddsComparison v) (hy : y.Undoes x)
    (hmerge : ∃ r, parse (merge settings source [x]) = .ok r) :
    (merge settings (merge settings source [x]) [y] = source ↔ Literal.isFoundAgain v = true)
      ∧ (Literal.isFoundAgain v = false →
        merge settings (merge settings source [x]) [y] = merge settings source [x]) := by
  obtain ⟨r, hr⟩ := hmerge
  have hne := merge_add_ne hq htarget hp hpath hx hr
  rw [merge_merge_delete hq hround htarget hp hpath hx hy hr]
  by_cases hfound : Literal.isFoundAgain v = true
  · rw [if_pos hfound]
    exact ⟨iff_of_true rfl hfound, fun hnot => absurd hfound (by simp [hnot])⟩
  · rw [if_neg hfound]
    exact ⟨iff_of_false hne hfound, fun _ => rfl⟩

end Merge

/-- A comparison with a value that is written as a string, and in which nothing is escaped, is added
inside of a negation and deleted. -/
theorem merge_merge_iff_string :
    let source := "functionCall fc where fc.a contain literal x ; ;"
    let x : Constraint :=
      { path := "x.b", operator? := some "MATCH", value? := some " a b ", action := .add,
        isNegative := true }
    let y : Constraint :=
      { path := "x.b", operator? := some "MATCH", former? := some " a b ", action := .delete }
    x.AddsComparison "a b" ∧ Literal.isFoundAgain "a b" = true
      ∧ merge {} source [x]
        = "functionCall fc where fc.a contain literal x where not(x.b match \"a b\") ; ;"
      ∧ merge {} (merge {} source [x]) [y] = source := by
  intro source x y
  obtain ⟨q, hq⟩ := Except.isOk_iff.mp (by decide +kernel : (parse source).isOk = true)
  obtain ⟨p, hp, htarget, hpath⟩ : ∃ p, q.queries[1]? = some p ∧ target? q x = some 1
      ∧ ∀ a ∈ p.condition.atomics, a.subject.path ≠ x.path := by
    have hfacts : ((parse source).toOption.all fun q =>
        (q.queries[1]?).any fun p => target? q x = some 1
          && p.condition.atomics.all fun a => a.subject.path ≠ x.path) = true := by
      decide +kernel
    rw [hq] at hfacts
    simp only [Except.toOption, Option.all_some, Option.any_eq_true, Bool.and_eq_true,
      List.all_eq_true, decide_eq_true_eq] at hfacts
    exact hfacts
  have hround : roundTrip source = .ok source := by
    have htext : ((parse source).toOption.map Query.render) = some source := by decide +kernel
    rw [hq] at htext
    rw [roundTrip, hq]
    exact congrArg Except.ok (Option.some.inj htext)
  have hx : x.AddsComparison "a b" :=
    ⟨rfl, ⟨⟨"x", ["b"]⟩, by decide, by decide⟩, ⟨"MATCH", by decide, by decide⟩, by decide⟩
  have hy : y.Undoes x := ⟨rfl, rfl, rfl, rfl⟩
  have hmerge : (parse (merge {} source [x])).isOk = true := by decide +kernel
  have hfound : Literal.isFoundAgain "a b" = true := by decide +kernel
  have hundo := merge_merge_iff hq hround htarget hp hpath hx hy (Except.isOk_iff.mp hmerge)
  exact ⟨hx, hfound, by decide +kernel, hundo.1.mpr hfound⟩

/-- A comparison with a value in which a quote is escaped is added, and is still there after it is
deleted. -/
theorem merge_merge_escaped :
    let source := "functionCall fc where fc.name == \"x\" ;"
    let x : Constraint :=
      { path := "fc.text", operator? := some "==", value? := some "a\"b", action := .add }
    let y : Constraint :=
      { path := "fc.text", operator? := some "==", former? := some "a\"b", action := .delete }
    ((parse source).toOption.map Query.render) = some source
      ∧ (parse (merge {} source [x])).isOk = true
      ∧ merge {} source [x]
        = "functionCall fc where and(fc.name == \"x\", fc.text == \"a\\\"b\") ;"
      ∧ merge {} (merge {} source [x]) [y] = merge {} source [x]
      ∧ merge {} (merge {} source [x]) [y] ≠ source := by
  decide +kernel

end NodeQuery
