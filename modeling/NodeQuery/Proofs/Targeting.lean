/-
Which query a constraint is aimed at, and what of a list of constraints counts.

A constraint is aimed at the last query that declares its leading alias. The constraints that do
the same and are aimed at the same query are applied in the order in which they are given; apart
from that, the order in which constraints are given is of no account, and neither are those that
are aimed at nothing.

* `Query.LastDeclares`: the place of the last query that declares an alias.
* `target?_eq_some_iff`: the query at which a constraint is aimed.
* `changesAt_congr`: what counts for one query.
* `merge_congr`: what counts for the merged text.
-/
import Mathlib.Tactic.Common
import NodeQuery.Constraint.Merge
import NodeQuery.Proofs.RoundTrip
import NodeQuery.Query

namespace NodeQuery

/-! ### The last occurrence in a list -/

section LastIndex

variable {α : Type} [DecidableEq α] {x : α}

theorem lastIndexOf?_eq_none_iff {ys : List α} : lastIndexOf? x ys = none ↔ x ∉ ys := by
  induction ys with
  | nil => simp [lastIndexOf?]
  | cons y ys ih =>
    rw [lastIndexOf?, List.mem_cons]
    cases h : lastIndexOf? x ys with
    | none => simp [ih.mp h, eq_comm]
    | some i =>
      have hmem : x ∈ ys := by
        by_contra hnot
        rw [ih.mpr hnot] at h
        cases h
      simp [hmem]

/-- The place of the last occurrence is the number of elements in front of it. -/
theorem lastIndexOf?_eq_some_iff {ys : List α} {i : Nat} :
    lastIndexOf? x ys = some i ↔ ∃ as bs, ys = as ++ x :: bs ∧ as.length = i ∧ x ∉ bs := by
  induction ys generalizing i with
  | nil => simp [lastIndexOf?]
  | cons y ys ih =>
    rw [lastIndexOf?]
    cases h : lastIndexOf? x ys with
    | none =>
      -- the only occurrence there can be is the first element
      have hnot := lastIndexOf?_eq_none_iff.mp h
      constructor
      · intro hi
        by_cases hy : y = x
        · simp only [hy, if_true, Option.some.injEq] at hi
          exact ⟨[], ys, by rw [hy]; rfl, hi, hnot⟩
        · simp [hy] at hi
      · rintro ⟨as, bs, heq, rfl, -⟩
        cases as with
        | nil =>
          obtain ⟨rfl, -⟩ := List.cons.inj heq
          simp
        | cons a as =>
          obtain ⟨-, rfl⟩ := List.cons.inj heq
          exact absurd (by simp) hnot
    | some k =>
      obtain ⟨as, bs, rfl, rfl, hbs⟩ := ih.mp h
      constructor
      · rintro ⟨rfl⟩
        exact ⟨y :: as, bs, rfl, rfl, hbs⟩
      · rintro ⟨as', bs', heq, rfl, hbs'⟩
        cases as' with
        | nil =>
          obtain ⟨-, rfl⟩ := List.cons.inj heq
          exact absurd (by simp) hbs'
        | cons a as' =>
          obtain ⟨-, htail⟩ := List.cons.inj heq
          have hlast := ih.mpr ⟨as', bs', htail, rfl, hbs'⟩
          rw [h, Option.some.injEq] at hlast
          simp [hlast]

end LastIndex

/-! ### The query at which a constraint is aimed -/

/-- Of the queries in `q`, the one with the number `i` declares `name`, and none of those behind
it does. -/
def Query.LastDeclares (q : Query) (name : String) (i : Nat) : Prop :=
  ∃ before p after, q.queries = before ++ p :: after ∧ before.length = i
    ∧ p.entity.alias? = some name ∧ ∀ r ∈ after, r.entity.alias? ≠ some name

theorem Query.lastDeclares_iff {q : Query} {name : String} {i : Nat} :
    q.LastDeclares name i
      ↔ lastIndexOf? (some name) (q.queries.map fun p => p.entity.alias?) = some i := by
  rw [lastIndexOf?_eq_some_iff]
  constructor
  · rintro ⟨before, p, after, hq, rfl, hp, hafter⟩
    refine ⟨before.map fun p => p.entity.alias?, after.map fun p => p.entity.alias?, ?_, by simp,
      ?_⟩
    · rw [hq, List.map_append, List.map_cons, hp]
    · intro hmem
      obtain ⟨r, hr, hname⟩ := List.mem_map.mp hmem
      exact hafter r hr hname
  · rintro ⟨as, bs, hmap, rfl, hbs⟩
    obtain ⟨before, rest, hq, rfl, hrest⟩ := List.map_eq_append_iff.mp hmap
    obtain ⟨p, after, rfl, hp, rfl⟩ := List.map_eq_cons_iff.mp hrest
    refine ⟨before, p, after, hq, by simp, hp, ?_⟩
    intro r hr hname
    exact hbs (List.mem_map.mpr ⟨r, hr, hname⟩)

theorem target?_eq_some_iff {q : Query} {c : Constraint} {i : Nat} :
    target? q c = some i ↔ c.leadingAlias ≠ "" ∧ q.LastDeclares c.leadingAlias i := by
  rw [target?, Query.lastDeclares_iff]
  by_cases h : c.leadingAlias = "" <;> simp [h]

theorem Aliases.contains_ofQuery_iff {q : Query} {name : String} :
    (Aliases.ofQuery q).contains name = true ↔ ∃ p ∈ q.queries, p.entity.alias? = some name := by
  rw [contains, find?, Option.isSome_map, List.find?_isSome]
  simp [ofQuery]

/-- The queries in a condition that is made of names are made of names. -/
theorem Condition.isPlain_of_mem_queries {c : Condition} (h : c.IsPlain) :
    ∀ p ∈ c.queries, p.IsPlain := by
  induction c with
  | value m => simp [queries]
  | relation a op e c spans ih =>
    obtain ⟨-, he, hc⟩ := h
    intro p hp
    rcases List.mem_cons.mp hp with rfl | hp
    · exact ⟨he, hc⟩
    · exact ih hc p hp
  | negation c ih => exact ih h
  | group k cs ih =>
    intro p hp
    rw [queries, queriesOfAll_eq_flatMap] at hp
    obtain ⟨c, hc, hp⟩ := List.mem_flatMap.mp hp
    exact ih c hc (allWellFormed_iff.mp h.2 c hc) p hp

theorem Query.isPlain_of_mem_queries {q : Query} (hq : q.IsPlain) : ∀ p ∈ q.queries, p.IsPlain := by
  intro p hp
  rcases List.mem_cons.mp hp with rfl | hp
  · exact hq
  · exact Condition.isPlain_of_mem_queries hq.2 p hp

/-- No query that is read of a text declares an alias without characters. -/
theorem contains_empty_of_parse {source : String} {q : Query} (h : parse source = .ok q) :
    (Aliases.ofQuery q).contains "" = false := by
  obtain ⟨hq, -, -⟩ := tidy_of_parse h
  rw [← Bool.not_eq_true, Aliases.contains_ofQuery_iff]
  rintro ⟨p, hp, halias⟩
  have hname := (Query.isPlain_of_mem_queries hq p hp).1
  rw [Entity.isPlain, halias, Bool.and_eq_true] at hname
  exact absurd hname.2 (by decide)

theorem contains_of_target? {q : Query} {c : Constraint} {i : Nat} (h : target? q c = some i) :
    (Aliases.ofQuery q).contains c.leadingAlias = true := by
  obtain ⟨-, before, p, after, hq, -, hp, -⟩ := target?_eq_some_iff.mp h
  exact Aliases.contains_ofQuery_iff.mpr ⟨p, by simp [hq], hp⟩

/-- Constraints that are aimed at the same query have the same leading alias. -/
theorem leadingAlias_eq_of_target? {q : Query} {c d : Constraint} {i : Nat}
    (hc : target? q c = some i) (hd : target? q d = some i) :
    c.leadingAlias = d.leadingAlias := by
  obtain ⟨-, before, p, after, hq, hi, hp, -⟩ := target?_eq_some_iff.mp hc
  obtain ⟨-, before', p', after', hq', hi', hp', -⟩ := target?_eq_some_iff.mp hd
  obtain ⟨-, hrest⟩ := List.append_inj (hq.symm.trans hq') (hi.trans hi'.symm)
  obtain ⟨rfl, -⟩ := List.cons.inj hrest
  exact Option.some.inj (hp.symm.trans hp')

theorem target?_eq_some_iff_leadingAlias {q : Query} {c d : Constraint} {i : Nat}
    (hd : target? q d = some i) : target? q c = some i ↔ c.leadingAlias = d.leadingAlias := by
  constructor
  · intro hc
    exact leadingAlias_eq_of_target? hc hd
  · intro halias
    rw [target?_eq_some_iff] at hd ⊢
    rwa [halias]

/-! ### What counts of a list of constraints -/

/-- The constraints that have the leading alias `name` and do the same, in the order given. -/
def ofSort (name : String) (action : Constraint.Action) (cs : List Constraint) : List Constraint :=
  cs.filter fun c => c.leadingAlias = name ∧ c.action = action

/-- The lists have the same constraints of each sort that is aimed at a query in `q`. -/
def SameSorts (q : Query) (cs ds : List Constraint) : Prop :=
  ∀ name, (Aliases.ofQuery q).contains name = true →
    ∀ action, ofSort name action cs = ofSort name action ds

section Sorts

variable {q : Query} {cs ds : List Constraint}

theorem SameSorts.symm (h : SameSorts q cs ds) : SameSorts q ds cs := by
  intro name hname action
  exact (h name hname action).symm

/-- Constraints that are aimed at one query and do the same are of one sort. -/
theorem filter_target?_eq {d : Constraint} {i : Nat} (hd : target? q d = some i)
    (action : Constraint.Action) (cs : List Constraint) :
    (cs.filter fun c => target? q c = some i).filter (·.action = action)
      = ofSort d.leadingAlias action cs := by
  rw [List.filter_filter, ofSort]
  refine List.filter_congr fun c _ => ?_
  rw [Bool.eq_iff_iff]
  simp [target?_eq_some_iff_leadingAlias hd, and_comm]

theorem changesAt_congr (h : SameSorts q cs ds) (i : Nat) :
    changesAt q cs i = changesAt q ds i := by
  by_cases hi : ∃ d, target? q d = some i
  · obtain ⟨d, hd⟩ := hi
    have hsort := h d.leadingAlias (contains_of_target? hd)
    simp only [changesAt, Changes.ofList, filter_target?_eq hd, hsort]
  · -- no constraint at all is aimed at the query
    have hnone : ∀ bs : List Constraint, (bs.filter fun c => target? q c = some i) = [] := by
      intro bs
      rw [List.filter_eq_nil_iff]
      intro b _ hb
      exact hi ⟨b, of_decide_eq_true hb⟩
    rw [changesAt, changesAt, hnone cs, hnone ds]

theorem exists_target?_of_sameSorts (h : SameSorts q cs ds)
    (hcs : ∃ c ∈ cs, (target? q c).isSome = true) : ∃ d ∈ ds, (target? q d).isSome = true := by
  obtain ⟨c, hc, hsome⟩ := hcs
  obtain ⟨i, hi⟩ := Option.isSome_iff_exists.mp hsome
  have hmem : c ∈ ofSort c.leadingAlias c.action cs := List.mem_filter.mpr ⟨hc, by simp⟩
  rw [h c.leadingAlias (contains_of_target? hi)] at hmem
  exact ⟨c, (List.mem_filter.mp hmem).1, hsome⟩

end Sorts

/-- The merged text depends on the constraints of each sort that is aimed at something only. -/
theorem merge_congr {settings : Settings} {source : String} {cs ds : List Constraint}
    (h : ∀ q, parse source = .ok q → SameSorts q cs ds) :
    merge settings source cs = merge settings source ds := by
  rw [merge, merge]
  cases hq : parse source with
  | error e => rfl
  | ok q =>
    have hsorts := h q hq
    have hany : (cs.any fun c => (target? q c).isSome) = ds.any fun c => (target? q c).isSome := by
      rw [Bool.eq_iff_iff, List.any_eq_true, List.any_eq_true]
      exact ⟨exists_target?_of_sameSorts hsorts, exists_target?_of_sameSorts hsorts.symm⟩
    have hchanges : changesAt q cs = changesAt q ds := funext (changesAt_congr hsorts)
    simp only [Query.applyAll, hchanges, hany]

/-! ### Orders that come to the same -/

/-- The text into which constraints are merged is the same for lists that have the same
constraints, in the same order, of each sort that is aimed at something. So constraints that are
aimed at nothing can be put in or left out anywhere, and constraints that do different things, or
have different leading aliases, can be mixed in any way. -/
theorem merge_interleaved (settings : Settings) (source : String) :
    (∀ cs ds : List Constraint,
      (∀ q, parse source = .ok q → ∀ name, (Aliases.ofQuery q).contains name = true →
        ∀ action, ofSort name action cs = ofSort name action ds) →
      merge settings source cs = merge settings source ds)
    ∧ (∀ (cs ds : List Constraint) (c : Constraint),
      (∀ q, parse source = .ok q →
        c.leadingAlias = "" ∨ (Aliases.ofQuery q).contains c.leadingAlias = false) →
      merge settings source (cs ++ c :: ds) = merge settings source (cs ++ ds))
    ∧ (∀ cs ds : List Constraint,
      (∀ action : Constraint.Action,
        cs.filter (·.action = action) = ds.filter (·.action = action)) →
      merge settings source cs = merge settings source ds)
    ∧ ∀ cs ds : List Constraint,
      (∀ name, cs.filter (·.leadingAlias = name) = ds.filter (·.leadingAlias = name)) →
      merge settings source cs = merge settings source ds := by
  refine ⟨fun cs ds h => merge_congr h, ?_, ?_, ?_⟩
  · intro cs ds c h
    refine merge_congr fun q hq name hname action => ?_
    have hne : c.leadingAlias ≠ name := by
      rintro rfl
      rcases h q hq with hempty | hundeclared
      · rw [hempty, contains_empty_of_parse hq] at hname
        cases hname
      · rw [hundeclared] at hname
        cases hname
    simp [ofSort, hne]
  · intro cs ds h
    refine merge_congr fun q _ name _ action => ?_
    have hsort : ∀ bs : List Constraint,
        ofSort name action bs = (bs.filter (·.action = action)).filter (·.leadingAlias = name) := by
      intro bs
      rw [List.filter_filter, ofSort]
      simp
    rw [hsort, hsort, h]
  · intro cs ds h
    refine merge_congr fun q _ name _ action => ?_
    have hsort : ∀ bs : List Constraint,
        ofSort name action bs = (bs.filter (·.leadingAlias = name)).filter (·.action = action) := by
      intro bs
      rw [List.filter_filter, ofSort]
      simp [and_comm]
    rw [hsort, hsort, h]

/-- Constraints on two aliases, one of them declared twice, in an order of its own, with one on an
alias that is not declared. -/
theorem merge_interleaved_twice :
    let source := "functionCall fc where and(fc.a == 1, fc.b contain literal x where x.c == 1, "
      ++ "fc.d contain literal x where x.c == 1) ;"
    let add : Constraint :=
      { path := "x.e", operator? := some "==", value? := some "2", action := .add }
    let drop : Constraint := { path := "x.c", action := .delete }
    let edit : Constraint :=
      { path := "fc.a", operator? := some "==", value? := some "3", action := .edit }
    let astray : Constraint := { path := "y.e", action := .delete }
    merge {} source [drop, add, edit] = "functionCall fc where and(fc.a == 3, "
        ++ "fc.b contain literal x where x.c == 1 ;, fc.d contain literal x where x.e == 2 ;) ;"
      ∧ merge {} source [add, edit, astray, drop] = merge {} source [drop, add, edit]
      ∧ merge {} source [add, edit, astray, drop] = merge {} source [add, edit, drop]
      ∧ merge {} source [add, edit, drop] = merge {} source [drop, edit, add]
      ∧ merge {} source [add, edit, drop] = merge {} source [edit, add, drop] := by
  intro source add drop edit astray
  obtain ⟨hsorts, hastray, hactions, haliases⟩ := merge_interleaved {} source
  have hnames : ((parse source).toOption.all fun q =>
      (Aliases.ofQuery q).declarations.map Prod.fst = ["fc", "x", "x"]) = true := by
    decide +kernel
  have hdeclared : ∀ q, parse source = .ok q → ∀ name, (Aliases.ofQuery q).contains name = true →
      name = "fc" ∨ name = "x" := by
    intro q hq name hname
    rw [hq] at hnames
    obtain ⟨p, hp, halias⟩ := Aliases.contains_ofQuery_iff.mp hname
    have hmem : name ∈ (Aliases.ofQuery q).declarations.map Prod.fst :=
      List.mem_map.mpr ⟨(name, p), List.mem_filterMap.mpr ⟨p, hp, by rw [halias]; rfl⟩, rfl⟩
    rw [show (Aliases.ofQuery q).declarations.map Prod.fst = ["fc", "x", "x"] from
      of_decide_eq_true hnames] at hmem
    simpa using hmem
  refine ⟨by decide +kernel, hsorts _ _ ?_, hastray [add, edit] [drop] astray ?_,
    hactions _ _ ?_, haliases _ _ ?_⟩
  · intro q hq name hname action
    rcases hdeclared q hq name hname with rfl | rfl <;> cases action <;> decide +kernel
  · intro q hq
    right
    rw [← Bool.not_eq_true]
    intro hy
    rcases hdeclared q hq _ hy with h | h <;> exact absurd h (by decide +kernel)
  · intro action
    cases action <;> rfl
  · intro name
    have hedit : edit.leadingAlias = "fc" := by decide +kernel
    have hadd : add.leadingAlias = "x" := by decide +kernel
    by_cases hname : name = "fc"
    · rw [hname]
      decide +kernel
    · simp [List.filter_cons, hedit, Ne.symm hname]

end NodeQuery
