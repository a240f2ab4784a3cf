/-
Merging constraints into a query.

A constraint is aimed at the last query that declares its leading alias. The constraints
aimed at one query are applied to its condition in three rounds: the deletions, the edits,
and the additions, each in the order given. Queries nested in a condition are changed in
front of the condition itself. An edit or an addition after which the condition could not
be read again is left out.

* `target?`: the query at which a constraint is aimed.
* `Changes`: the constraints aimed at one query; `Changes.apply`: their effect on its
  condition.
* `Query.rebuild`: a query with all conditions in it changed.
* `merge`: the text of the changed query.
-/
import NodeQuery.Constraint
import NodeQuery.Edit
import NodeQuery.Settings.Reader

namespace NodeQuery

/-! ### Targets -/

/-- The place of the last occurrence of `x` in a list, counted from zero. -/
def lastIndexOf? {α : Type} [DecidableEq α] (x : α) : List α → Option Nat
  | [] => none
  | y :: ys =>
    match lastIndexOf? x ys with
    | some i => some (i + 1)
    | none => if y = x then some 0 else none

/-- The place, among the queries in `q`, of the one at which a constraint is aimed. -/
def target? (q : Query) (c : Constraint) : Option Nat :=
  if c.leadingAlias = "" then
    none
  else
    lastIndexOf? (some c.leadingAlias) (q.queries.map fun p => p.entity.alias?)

/-! ### The changes of one condition -/

/-- The constraints aimed at one query, by what they do. -/
structure Changes where
  deletions : List Constraint
  edits : List Constraint
  additions : List Constraint
  deriving DecidableEq, Repr

/-- Constraints by what they do. -/
def Changes.ofList (cs : List Constraint) : Changes :=
  ⟨cs.filter (·.action = .delete), cs.filter (·.action = .edit), cs.filter (·.action = .add)⟩

/-- The leaves that a constraint selects. -/
def Constraint.selector (c : Constraint) : Selector :=
  ⟨Text.trim c.path, c.operatorText?, c.former?⟩

/-- Whether a condition can be read again once it is written. -/
def Condition.isReadable (c : Condition) : Bool :=
  (parseCondition c.render).isOk

namespace Changes

/-- The condition on `e` after a deletion; the placeholder stands for a condition of which
nothing is left. -/
def delete (e : Entity) (condition : Condition) (c : Constraint) : Condition :=
  (condition.remove c.selector).1.getD (Condition.placeholder e)

/-- The condition after an edit. -/
def edit (condition : Condition) (c : Constraint) : Condition :=
  match c.valueText? with
  | none => condition
  | some value =>
    let edited := condition.update c.selector value
    if edited.isReadable then edited else condition

/-- The condition on `e` after an addition, which takes the place of the placeholder. -/
def add (settings : Settings) (e : Entity) (condition : Condition) (c : Constraint) :
    Condition :=
  match c.condition? with
  | none => condition
  | some new =>
    if new.isReadable then
      Condition.join settings.combine
        (if condition.isPlaceholder e then none else some condition) new
    else
      condition

/-- The condition on `e` after all changes. -/
def apply (settings : Settings) (changes : Changes) (e : Entity) (condition : Condition) :
    Condition :=
  let deleted := changes.deletions.foldl (delete e) condition
  let edited := changes.edits.foldl edit deleted
  changes.additions.foldl (add settings e) edited

end Changes

/-! ### The changes of all conditions -/

namespace Condition

mutual

/-- A condition with the condition of every query in it changed, given how to change the
condition of the `i`-th query on an entity; `next` counts the queries in front. -/
def rebuild (change : Nat → Entity → Condition → Condition) (next : Nat) :
    Condition → Condition
  | value m => .value m
  | relation a op e c spans =>
    .relation a op e (change next e (c.rebuild change (next + 1))) spans
  | negation c => .negation (c.rebuild change next)
  | group k cs => .group k (rebuildAll change next cs)

/-- Conditions with the condition of every query in them changed. -/
def rebuildAll (change : Nat → Entity → Condition → Condition) (next : Nat) :
    List Condition → List Condition
  | [] => []
  | c :: cs => c.rebuild change next :: rebuildAll change (next + c.queries.length) cs

end

end Condition

/-- A query with its condition and that of every query in it changed, given how to change
the condition of the `i`-th query on an entity. -/
def Query.rebuild (change : Nat → Entity → Condition → Condition) (q : Query) : Query :=
  ⟨q.entity, change 0 q.entity (q.condition.rebuild change 1), q.spans⟩

/-- The constraints that are aimed at the `i`-th query in `q`. -/
def changesAt (q : Query) (cs : List Constraint) (i : Nat) : Changes :=
  Changes.ofList (cs.filter fun c => target? q c = some i)

/-- A query with constraints applied. -/
def Query.applyAll (settings : Settings) (q : Query) (cs : List Constraint) : Query :=
  q.rebuild fun i => (changesAt q cs i).apply settings

/-- The text of a query with constraints applied. A text that is no query, and one at which
no constraint is aimed, stays as it is. -/
def merge (settings : Settings) (source : String) (cs : List Constraint) : String :=
  match parse source with
  | .error _ => source
  | .ok q =>
    if cs.any fun c => (target? q c).isSome then (q.applyAll settings cs).render else source

end NodeQuery
