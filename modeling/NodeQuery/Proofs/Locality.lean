/-
A merge changes the conditions of the queries at which it is aimed, and nothing else.

The queries in a query are counted from the outside in and from left to right, each in front of
those inside it. The leaves of conditions list them in this order, and a walk through the query
that counts them as it meets them gives each the same number. So the changes meant for the query
with some number are made in its condition, and every other part of the query stays as it is.

* `Query.rebuildCounting`: the change of all conditions, with the queries counted on the way.
* `Query.withConditionAt`: a query with another condition for the query with some number in it.
* `Query.rebuild_changeAt`: a change of one condition.
* `merge_local`: where the constraints of a merge go.
-/
import NodeQuery.Proofs.Merging
import NodeQuery.Proofs.Targeting

namespace NodeQuery

/-! ### The numbers of queries -/

namespace Condition

mutual

/-- A condition with the condition of every query in it changed, and the number of the next
query. The queries are counted as they are met. -/
def rebuildCounting (change : Nat → Entity → Condition → Condition) (next : Nat) :
    Condition → Condition × Nat
  | value m => (.value m, next)
  | relation a op e c spans =>
    let (inner, after) := c.rebuildCounting change (next + 1)
    (.relation a op e (change next e inner) spans, after)
  | negation c =>
    let (inner, after) := c.rebuildCounting change next
    (.negation inner, after)
  | group k cs =>
    let (members, after) := rebuildAllCounting change next cs
    (.group k members, after)

/-- Conditions with the condition of every query in them changed, and the number of the next
query. -/
def rebuildAllCounting (change : Nat → Entity → Condition → Condition) (next : Nat) :
    List Condition → List Condition × Nat
  | [] => ([], next)
  | c :: cs =>
    let (first, between) := c.rebuildCounting change next
    let (others, after) := rebuildAllCounting change between cs
    (first :: others, after)

end

theorem rebuildCounting_eq (change : Nat → Entity → Condition → Condition) (next : Nat)
    (c : Condition) :
    c.rebuildCounting change next = (c.rebuild change next, next + c.queries.length) := by
  induction c generalizing next with
  | value m => rfl
  | relation a op e c spans ih =>
    rw [rebuildCounting, ih, rebuild, queries, List.length_cons]
    simp only [Prod.mk.injEq, true_and]
    omega
  | negation c ih =>
    rw [rebuildCounting, ih, rebuild, queries]
  | group k cs ih =>
    have key : ∀ next, rebuildAllCounting change next cs
        = (rebuildAll change next cs, next + (queriesOfAll cs).length) := by
      induction cs with
      | nil => exact fun _ => rfl
      | cons c cs ihs =>
        rw [List.forall_mem_cons] at ih
        intro next
        rw [rebuildAllCounting, ih.1, rebuildAll, queriesOfAll, List.length_append]
        simp only [ihs ih.2, Prod.mk.injEq, true_and]
        omega
    rw [rebuildCounting, key, rebuild, queries]

end Condition

/-- A query with its condition and that of every query in it changed, and the number of the next
query. The queries are counted as they are met. -/
def Query.rebuildCounting (change : Nat → Entity → Condition → Condition) (next : Nat)
    (q : Query) : Query × Nat :=
  let (inner, after) := q.condition.rebuildCounting change (next + 1)
  (⟨q.entity, change next q.entity inner, q.spans⟩, after)

theorem Query.rebuildCounting_eq (change : Nat → Entity → Condition → Condition) (q : Query) :
    q.rebuildCounting change 0 = (q.rebuild change, q.queries.length) := by
  rw [rebuildCounting, Condition.rebuildCounting_eq, rebuild, queries, List.length_cons,
    Nat.zero_add, Nat.add_comm]

/-! ### One condition in the place of another -/

namespace Condition

mutual

/-- A condition in which the query with the number `i` has the condition `d`. -/
def withConditionAt (d : Condition) (i : Nat) : Condition → Condition
  | value m => .value m
  | relation a op e c spans =>
    match i with
    | 0 => .relation a op e d spans
    | j + 1 => .relation a op e (withConditionAt d j c) spans
  | negation c => .negation (withConditionAt d i c)
  | group k cs => .group k (withConditionInAll d i cs)

/-- Conditions in which the query with the number `i` has the condition `d`. -/
def withConditionInAll (d : Condition) (i : Nat) : List Condition → List Condition
  | [] => []
  | c :: cs =>
    if i < c.queries.length then withConditionAt d i c :: cs
    else c :: withConditionInAll d (i - c.queries.length) cs

end

variable {d : Condition} {p : Query}

/-- The query with the number `i` has the condition that it is given, and is the same apart from
that. -/
theorem getElem?_queries_withConditionAt {c : Condition} {i : Nat} (h : c.queries[i]? = some p) :
    (withConditionAt d i c).queries[i]? = some ⟨p.entity, d, p.spans⟩ := by
  induction c generalizing i with
  | value m => cases h
  | relation a op e c spans ih =>
    cases i with
    | zero =>
      cases h
      rfl
    | succ j =>
      rw [queries, List.getElem?_cons_succ] at h
      rw [withConditionAt, queries, List.getElem?_cons_succ]
      exact ih h
  | negation c ih => exact ih h
  | group k cs ih =>
    have key : ∀ i, (queriesOfAll cs)[i]? = some p →
        (queriesOfAll (withConditionInAll d i cs))[i]? = some ⟨p.entity, d, p.spans⟩ := by
      clear h
      induction cs with
      | nil =>
        intro i h
        cases h
      | cons c cs ihs =>
        rw [List.forall_mem_cons] at ih
        intro i h
        rw [queriesOfAll, List.getElem?_append] at h
        rw [withConditionInAll]
        split_ifs at h ⊢ with hi
        · have hc := ih.1 h
          obtain ⟨hlt, -⟩ := List.getElem?_eq_some_iff.mp hc
          rw [queriesOfAll, List.getElem?_append_left hlt, hc]
        · rw [queriesOfAll, List.getElem?_append_right (not_lt.mp hi)]
          exact ihs ih.2 _ h
    exact key i h

end Condition

/-- A query in which the query with the number `i` has the condition `d`. -/
def Query.withConditionAt (d : Condition) (i : Nat) (q : Query) : Query :=
  match i with
  | 0 => ⟨q.entity, d, q.spans⟩
  | j + 1 => ⟨q.entity, Condition.withConditionAt d j q.condition, q.spans⟩

theorem Query.getElem?_queries_withConditionAt {q p : Query} {i : Nat}
    (h : q.queries[i]? = some p) (d : Condition) :
    (q.withConditionAt d i).queries[i]? = some ⟨p.entity, d, p.spans⟩ := by
  cases i with
  | zero =>
    cases h
    rfl
  | succ j =>
    rw [queries, List.getElem?_cons_succ] at h ⊢
    exact Condition.getElem?_queries_withConditionAt h

/-! ### The change of one condition -/

/-- A change of the condition of the query with the number `k` only. -/
def changeAt (k : Nat) (f : Entity → Condition → Condition) (i : Nat) (e : Entity)
    (c : Condition) : Condition :=
  if i = k then f e c else c

@[simp] theorem changeAt_self (k : Nat) (f : Entity → Condition → Condition) :
    changeAt k f k = f := by
  funext e c
  exact if_pos rfl

theorem changeAt_of_ne {i k : Nat} (h : i ≠ k) (f : Entity → Condition → Condition) (e : Entity)
    (c : Condition) : changeAt k f i e c = c :=
  if_neg h

section ChangeAt

variable {f : Entity → Condition → Condition} {k : Nat}

/-- A condition stays as it is if the query that is changed is not inside it. -/
theorem Condition.rebuild_changeAt_of_not_mem {c : Condition} {next : Nat}
    (h : k < next ∨ next + c.queries.length ≤ k) : c.rebuild (changeAt k f) next = c := by
  refine rebuild_of_forall fun i h₁ h₂ e d => changeAt_of_ne ?_ f e d
  omega

theorem Condition.rebuildAll_changeAt_of_lt {cs : List Condition} {next : Nat} (h : k < next) :
    rebuildAll (changeAt k f) next cs = cs := by
  induction cs generalizing next with
  | nil => rfl
  | cons c cs ih => rw [rebuildAll, rebuild_changeAt_of_not_mem (.inl h), ih (by omega)]

/-- What is made of the condition of one query takes the place of the condition, and the rest stays
as it is. -/
theorem Condition.rebuild_changeAt {c : Condition} {p : Query} {i : Nat}
    (h : c.queries[i]? = some p) (next : Nat) :
    c.rebuild (changeAt (next + i) f) next = withConditionAt (f p.entity p.condition) i c := by
  induction c generalizing i next with
  | value m => cases h
  | relation a op e c spans ih =>
    cases i with
    | zero =>
      -- the queries inside have greater numbers
      cases h
      rw [rebuild, Nat.add_zero, changeAt_self,
        rebuild_changeAt_of_not_mem (.inl (Nat.lt_succ_self next)), withConditionAt]
    | succ j =>
      rw [queries, List.getElem?_cons_succ] at h
      have hinner := ih h (next + 1)
      rw [show next + 1 + j = next + (j + 1) by omega] at hinner
      rw [rebuild, changeAt_of_ne (by omega), hinner, withConditionAt]
  | negation c ih => rw [rebuild, ih h, withConditionAt]
  | group l cs ih =>
    have key : ∀ i next, (queriesOfAll cs)[i]? = some p →
        rebuildAll (changeAt (next + i) f) next cs
          = withConditionInAll (f p.entity p.condition) i cs := by
      clear h
      induction cs with
      | nil =>
        intro i next h
        cases h
      | cons c cs ihs =>
        rw [List.forall_mem_cons] at ih
        intro i next h
        rw [queriesOfAll, List.getElem?_append] at h
        rw [rebuildAll, withConditionInAll]
        split_ifs at h ⊢ with hi
        · rw [ih.1 h, rebuildAll_changeAt_of_lt (by omega)]
        · have hothers := ihs ih.2 (i - c.queries.length) (next + c.queries.length) h
          rw [show next + c.queries.length + (i - c.queries.length) = next + i by omega]
            at hothers
          rw [rebuild_changeAt_of_not_mem (.inr (by omega)), hothers]
    rw [rebuild, key i next h, withConditionAt]

theorem Query.rebuild_changeAt {q p : Query} (h : q.queries[k]? = some p)
    (f : Entity → Condition → Condition) :
    q.rebuild (changeAt k f) = q.withConditionAt (f p.entity p.condition) k := by
  cases k with
  | zero =>
    cases h
    rw [rebuild, changeAt_self, Condition.rebuild_changeAt_of_not_mem (.inl Nat.zero_lt_one),
      withConditionAt]
  | succ j =>
    rw [queries, List.getElem?_cons_succ] at h
    have hinner := Condition.rebuild_changeAt (f := f) h 1
    rw [Nat.add_comm 1 j] at hinner
    rw [rebuild, changeAt_of_ne (by omega), hinner, withConditionAt]

/-- A query stays as it is if the query with the number `k` is given the condition that it has. -/
theorem Query.withConditionAt_self {q p : Query} (h : q.queries[k]? = some p) :
    q.withConditionAt p.condition k = q := by
  have hsame : ∀ i e d, changeAt k (fun _ c => c) i e d = d := fun i e d => ite_self d
  rw [← rebuild_changeAt h fun _ c => c, rebuild, hsame,
    Condition.rebuild_of_forall fun i _ _ => hsame i]

end ChangeAt

/-! ### Where the constraints of a merge go -/

/-- In a query that is read of a text, the alias of a constraint says all about its target. -/
theorem target?_eq_some_iff_of_parse {source : String} {q : Query} (hq : parse source = .ok q)
    {c : Constraint} {i : Nat} :
    target? q c = some i ↔ q.LastDeclares c.leadingAlias i := by
  rw [target?_eq_some_iff]
  refine and_iff_right_of_imp ?_
  rintro ⟨before, p, after, hqueries, -, hp, -⟩ hempty
  have hcontains : (Aliases.ofQuery q).contains "" = true :=
    Aliases.contains_ofQuery_iff.mpr ⟨p, by simp [hqueries], hempty ▸ hp⟩
  rw [contains_empty_of_parse hq] at hcontains
  cases hcontains

theorem merge_of_exists_lastDeclares {source : String} {q : Query} (hq : parse source = .ok q)
    (settings : Settings) {cs : List Constraint}
    (hcs : ∃ c ∈ cs, ∃ i, q.LastDeclares c.leadingAlias i) :
    merge settings source cs = (q.rebuild fun i =>
      (Changes.ofList (cs.filter fun c => target? q c = some i)).apply settings).render := by
  obtain ⟨c, hc, i, hi⟩ := hcs
  refine merge_of_exists_ne_none hq fun hnone => ?_
  rw [← target?_eq_some_iff_of_parse hq, hnone c hc] at hi
  cases hi

/-- Constraints that are aimed at one query change its condition only. -/
theorem Query.applyAll_of_forall_target? {q p : Query} {k : Nat} (settings : Settings)
    (hp : q.queries[k]? = some p) {cs : List Constraint}
    (hcs : ∀ c ∈ cs, ∀ i, target? q c = some i → i = k) :
    q.applyAll settings cs
      = q.withConditionAt ((changesAt q cs k).apply settings p.entity p.condition) k := by
  have hchange : (fun i => (changesAt q cs i).apply settings)
      = changeAt k ((changesAt q cs k).apply settings) := by
    funext i
    by_cases hi : i = k
    · rw [hi, changeAt_self]
    · -- no constraints are left for a query with another number
      have hnone : (cs.filter fun c => target? q c = some i) = [] := by
        rw [List.filter_eq_nil_iff]
        intro c hc htarget
        exact hi (hcs c hc i (of_decide_eq_true htarget))
      funext e d
      rw [changeAt_of_ne hi, changesAt, hnone]
      rfl
  rw [applyAll, hchange, rebuild_changeAt hp]

theorem merge_of_forall_lastDeclares {source : String} {q p : Query} (hq : parse source = .ok q)
    (settings : Settings) {k : Nat} (hp : q.queries[k]? = some p) {cs : List Constraint}
    (hk : ∃ c ∈ cs, q.LastDeclares c.leadingAlias k)
    (hcs : ∀ c ∈ cs, ∀ i, q.LastDeclares c.leadingAlias i → i = k) :
    merge settings source cs = (q.withConditionAt
      ((Changes.ofList (cs.filter fun c => target? q c = some k)).apply settings p.entity
        p.condition) k).render := by
  obtain ⟨c, hc, hck⟩ := hk
  have happly := Query.applyAll_of_forall_target? settings hp fun d hd i htarget =>
    hcs d hd i ((target?_eq_some_iff_of_parse hq).mp htarget)
  rw [merge_of_exists_lastDeclares hq settings ⟨c, hc, k, hck⟩]
  exact congrArg Query.render happly

/-- The constraints for the query with some number are applied to its condition, and every other
part of the query stays as it is; the numbers are those of the list of queries, however they are
counted. In a merge, each constraint goes to the last query that declares its leading alias; if
that is the same query for all of them, the condition of this query is all that changes. -/
theorem merge_local {source : String} {q : Query} (hq : parse source = .ok q)
    (settings : Settings) :
    q.queries = q :: q.nestedQueries.flatMap Query.queries
      ∧ (∀ change, q.rebuildCounting change 0 = (q.rebuild change, q.queries.length))
      ∧ (∀ k p, q.queries[k]? = some p →
        (∀ changes : Changes, q.rebuild (changeAt k (changes.apply settings))
          = q.withConditionAt (changes.apply settings p.entity p.condition) k)
        ∧ (∀ d, (q.withConditionAt d k).queries[k]? = some ⟨p.entity, d, p.spans⟩)
        ∧ q.withConditionAt p.condition k = q)
      ∧ (∀ c i, target? q c = some i ↔ q.LastDeclares c.leadingAlias i)
      ∧ (∀ cs, (∃ c ∈ cs, ∃ i, q.LastDeclares c.leadingAlias i) →
        merge settings source cs = (q.rebuild fun i =>
          (Changes.ofList (cs.filter fun c => target? q c = some i)).apply settings).render)
      ∧ ∀ k p, q.queries[k]? = some p → ∀ cs, (∃ c ∈ cs, q.LastDeclares c.leadingAlias k) →
        (∀ c ∈ cs, ∀ i, q.LastDeclares c.leadingAlias i → i = k) →
        merge settings source cs = (q.withConditionAt
          ((Changes.ofList (cs.filter fun c => target? q c = some k)).apply settings p.entity
            p.condition) k).render := by
  refine ⟨q.queries_eq, fun change => q.rebuildCounting_eq change, ?_, ?_, ?_, ?_⟩
  · intro k p hp
    refine ⟨fun changes => ?_, fun d => ?_, ?_⟩
    · exact Query.rebuild_changeAt hp (changes.apply settings)
    · exact Query.getElem?_queries_withConditionAt hp d
    · exact Query.withConditionAt_self hp
  · intro c i
    exact target?_eq_some_iff_of_parse hq
  · intro cs hcs
    exact merge_of_exists_lastDeclares hq settings hcs
  · intro k p hp cs hk hcs
    exact merge_of_forall_lastDeclares hq settings hp hk hcs

/-- A constraint on an alias that two queries declare, the second of them nested in another one. -/
theorem merge_local_twice :
    let source := "functionCall fc where and(fc.a contain literal x where x.b == 1, "
      ++ "fc.a contain literal y where y.b contain literal x where x.b == 1) ;"
    let c : Constraint :=
      { path := "x.c", operator? := some "==", value? := some "2", action := .add }
    ∃ q p, parse source = .ok q ∧ q.queries[3]? = some p ∧ q.LastDeclares "x" 3
      ∧ q.rebuild (changeAt 3 ((Changes.ofList [c]).apply {}))
        = q.withConditionAt ((Changes.ofList [c]).apply {} p.entity p.condition) 3
      ∧ merge {} source [c]
        = (q.withConditionAt ((Changes.ofList [c]).apply {} p.entity p.condition) 3).render
      ∧ merge {} source [c] = "functionCall fc where and(fc.a contain literal x where x.b == 1 ;, "
        ++ "fc.a contain literal y where y.b contain literal x where and(x.b == 1, x.c == 2) ;"
        ++ " ;) ;" := by
  intro source c
  obtain ⟨q, hq⟩ := Except.isOk_iff.mp (by decide +kernel : (parse source).isOk = true)
  have hfacts : ((parse source).toOption.all fun q =>
      (q.queries[3]?).isSome && decide (target? q c = some 3)) = true := by
    decide +kernel
  rw [hq] at hfacts
  simp only [Except.toOption, Option.all_some, Bool.and_eq_true, decide_eq_true_eq] at hfacts
  obtain ⟨hsome, htarget⟩ := hfacts
  obtain ⟨p, hp⟩ := Option.isSome_iff_exists.mp hsome
  obtain ⟨-, -, hchange, hroute, -, hmerge⟩ := merge_local hq {}
  have hlast : q.LastDeclares c.leadingAlias 3 := (hroute c 3).mp htarget
  have halias : c.leadingAlias = "x" := by decide +kernel
  have hall := hmerge 3 p hp [c] ⟨c, List.mem_singleton_self c, hlast⟩ ?_
  · rw [List.filter_cons_of_pos (by simpa using htarget), List.filter_nil] at hall
    exact ⟨q, p, hq, hp, halias ▸ hlast, (hchange 3 p hp).1 _, hall, by decide +kernel⟩
  · intro d hd i hi
    rw [List.mem_singleton.mp hd, ← hroute, htarget] at hi
    exact (Option.some.inj hi).symm

end NodeQuery
