/-
Equality of queries up to the places where they stand.

Two queries say the same if they differ at most in their spans, at any depth.

* `Condition.same`, `Query.same`: the test.
* `Condition.eraseSpans`, `Query.eraseSpans`: the query that stands nowhere.
-/
import NodeQuery.Query

namespace NodeQuery

namespace Condition

mutual

/-- Whether two conditions say the same. -/
def same : Condition → Condition → Bool
  | value m, value n => m = n
  | relation a op e c _, relation b op' e' d _ => a = b && op = op' && e = e' && c.same d
  | negation c, negation d => c.same d
  | group k cs, group l ds => k = l && sameAll cs ds
  | _, _ => false

/-- Whether two lists of conditions say the same, one by one. -/
def sameAll : List Condition → List Condition → Bool
  | [], [] => true
  | c :: cs, d :: ds => c.same d && sameAll cs ds
  | _, _ => false

end

mutual

/-- The condition without the places of the queries inside it. -/
def eraseSpans : Condition → Condition
  | value m => .value m
  | relation a op e c _ => .relation a op e c.eraseSpans {}
  | negation c => .negation c.eraseSpans
  | group k cs => .group k (eraseAllSpans cs)

/-- The conditions without the places of the queries inside them. -/
def eraseAllSpans : List Condition → List Condition
  | [] => []
  | c :: cs => c.eraseSpans :: eraseAllSpans cs

end

end Condition

namespace Query

/-- Whether two queries say the same. -/
def same (p q : Query) : Bool :=
  p.entity = q.entity && p.condition.same q.condition

/-- The query without its places and those of the queries inside it. -/
def eraseSpans (q : Query) : Query :=
  ⟨q.entity, q.condition.eraseSpans, {}⟩

end Query

end NodeQuery
