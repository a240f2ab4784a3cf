/-
Groups keep two members or more.

A query that is read of a text has no group with fewer than two members, and neither has a query
that is the value of a constraint. A deletion lets a group fall together that is left with one
member, an edit changes no group, and an addition makes a group larger or begins one with two
members. So it stays like this when constraints are applied, whatever they are.

* `Condition.parts`: all conditions inside a condition, those of nested queries included.
* `Condition.two_le_length_of_mem_parts`: the groups of a well-formed condition.
* `Query.two_le_length_applyAll`: the groups of a query to which constraints were applied.
-/
import NodeQuery.Proofs.Merging

namespace NodeQuery

namespace Condition

mutual

/-- The conditions inside a condition, itself included, at any depth and also in nested queries. -/
def parts : Condition → List Condition
  | value m => [.value m]
  | relation a op e c spans => .relation a op e c spans :: c.parts
  | negation c => .negation c :: c.parts
  | group k cs => .group k cs :: partsOfAll cs

/-- The conditions inside conditions, one condition after the other. -/
def partsOfAll : List Condition → List Condition
  | [] => []
  | c :: cs => c.parts ++ partsOfAll cs

end

theorem partsOfAll_eq_flatMap (cs : List Condition) : partsOfAll cs = cs.flatMap parts := by
  induction cs with
  | nil => rfl
  | cons c cs ih => rw [partsOfAll, ih, List.flatMap_cons]

theorem two_le_length_of_mem_parts {P : Attribute → Prop} {c : Condition} (h : c.WellFormed P)
    {k : Connective} {members : List Condition} (hmem : .group k members ∈ c.parts) :
    2 ≤ members.length := by
  induction c with
  | value m => simp [parts] at hmem
  | relation a op e c spans ih =>
    rw [parts, List.mem_cons] at hmem
    rcases hmem with hself | hmem
    · cases hself
    · exact ih h.2.2 hmem
  | negation c ih =>
    rw [parts, List.mem_cons] at hmem
    rcases hmem with hself | hmem
    · cases hself
    · exact ih h hmem
  | group l cs ih =>
    rw [parts, List.mem_cons, partsOfAll_eq_flatMap] at hmem
    rcases hmem with hself | hmem
    · cases hself
      exact h.1
    · obtain ⟨c, hc, hmem⟩ := List.mem_flatMap.mp hmem
      exact ih c hc (allWellFormed_iff.mp h.2 c hc) hmem

end Condition

/-- What a constraint describes is well-formed, apart from its attribute, of which nothing is
known. -/
theorem Constraint.wellFormed_of_condition? {c : Constraint} {new : Condition}
    (h : c.condition? = some new) : new.WellFormed fun _ => True := by
  obtain ⟨p, hp, rfl⟩ := Option.map_eq_some_iff.mp h
  have hwf : p.WellFormed fun _ => True := by
    obtain ⟨a, operator, v, -, -, -, ⟨op, q, -, hq, rfl⟩ | ⟨op, -, -, rfl⟩⟩ :=
      positiveCondition?_eq_some hp
    · have hplain := isPlain_of_parseNested hq
      exact ⟨trivial, hplain.1, hplain.2.mono fun _ _ => trivial⟩
    · exact trivial
  -- a negation is no group
  cases c.isNegative with
  | false => exact hwf
  | true => exact hwf

/-- All groups have two members or more in a query to which constraints were applied, those in
nested queries included, if the query was read of a text. -/
theorem Query.two_le_length_applyAll {source : String} {q : Query} (hq : parse source = .ok q)
    (settings : Settings) (cs : List Constraint) :
    ∀ k members, .group k members ∈ (q.applyAll settings cs).condition.parts →
      2 ≤ members.length := by
  obtain ⟨hplain, -, -⟩ := tidy_of_parse hq
  have hwf : (q.applyAll settings cs).condition.WellFormed fun _ => True := by
    refine Query.wellFormed_applyAll (fun _ _ => trivial) hplain ?_ settings
    intro c _ new hnew _
    exact Constraint.wellFormed_of_condition? hnew
  intro k members hmem
  exact Condition.two_le_length_of_mem_parts hwf hmem

/-- Of a group in a group, all leaves but one are deleted, and a query with a group of its own is
added. -/
theorem Query.two_le_length_applyAll_deletions :
    let source := "functionCall fc where and(fc.a == 1, or(fc.b == 1, fc.c == 1)) ;"
    let drop (path : String) : Constraint := { path, action := .delete }
    let add : Constraint :=
      { path := "fc.d", operator? := some "contain",
        value? := some "literal x where or(x.a == 1, x.b == 1)", action := .add }
    let cs := [drop "fc.b", drop "fc.a", add]
    ∃ q, parse source = .ok q
      ∧ (q.applyAll {} cs).render = "functionCall fc where and(fc.c == 1, "
        ++ "fc.d contain literal x where or(x.a == 1, x.b == 1) ;) ;"
      ∧ ∀ k members, .group k members ∈ (q.applyAll {} cs).condition.parts →
        2 ≤ members.length := by
  intro source drop add cs
  obtain ⟨q, hq⟩ := Except.isOk_iff.mp (by decide +kernel : (parse source).isOk = true)
  have hrender : ((parse source).toOption.all fun q =>
      decide ((q.applyAll {} cs).render = "functionCall fc where and(fc.c == 1, "
        ++ "fc.d contain literal x where or(x.a == 1, x.b == 1) ;) ;")) = true := by
    decide +kernel
  rw [hq] at hrender
  exact ⟨q, hq, of_decide_eq_true hrender, Query.two_le_length_applyAll hq {} cs⟩

end NodeQuery
