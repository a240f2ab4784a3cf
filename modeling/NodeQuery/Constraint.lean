/-
Constraints: instructions to edit a query.

A constraint adds, edits or deletes a condition. Its path begins with the alias of the
entity whose condition is meant.

* `Constraint`: an instruction, with its fields as they were given.
* `Constraint.operatorText?`, `Constraint.valueText?`: fields without blanks around them;
  a blank field counts as missing.
* `Constraint.leadingAlias`: the alias at which a constraint aims.
* `Constraint.condition?`: the condition that a constraint describes.
-/
import NodeQuery.Query.Parser

namespace NodeQuery

/-- What a constraint does. -/
inductive Constraint.Action where
  | add
  | edit
  | delete
  deriving DecidableEq, Repr

/-- The word for what a constraint does. -/
def Constraint.Action.name : Constraint.Action → String
  | add => "add"
  | edit => "edit"
  | delete => "del"

/-- Which analysis has led to a constraint. -/
inductive Constraint.Origin where
  | buggy
  | fixed
  | falsePositive
  | unknown
  deriving DecidableEq, Repr

/-- The word for an origin. -/
def Constraint.Origin.name : Constraint.Origin → String
  | buggy => "buggy"
  | fixed => "fixed"
  | falsePositive => "fp"
  | unknown => "unknown"

/-- An instruction to edit a query. The former value is that of the condition that is to be
edited or deleted. -/
structure Constraint where
  path : String
  operator? : Option String := none
  value? : Option String := none
  action : Constraint.Action
  isNegative : Bool := false
  former? : Option String := none
  origin : Constraint.Origin := .unknown
  deriving DecidableEq, Repr

namespace Constraint

/-- The operator without blanks around it. -/
def operatorText? (c : Constraint) : Option String :=
  c.operator?.bind Text.trim?

/-- The value without blanks around it. -/
def valueText? (c : Constraint) : Option String :=
  c.value?.bind Text.trim?

/-- The first segment of the path, the alias at which the constraint aims. -/
def leadingAlias (c : Constraint) : String :=
  Text.trim (String.ofList ((Text.segments '.' c.path.toList).headD []))

/-- The constraint in one line. -/
def render (c : Constraint) : String :=
  "[" ++ c.action.name ++ "] " ++ c.path
    ++ (c.operatorText?.map (" " ++ ·)).getD ""
    ++ (c.valueText?.map (" " ++ ·)).getD ""
    ++ if c.isNegative then " (negative)" else ""

/-- The condition without regard to its sign: a relation to the query that the value is, or
a comparison with the value. -/
def positiveCondition? (c : Constraint) : Option Condition := do
  let subject ← Attribute.ofPath? (Text.trim c.path)
  let operator ← c.operatorText?
  let value ← c.valueText?
  match RelOp.ofText? operator with
  | some op => (parseNested value).toOption.map (Condition.relate subject op)
  | none => (ValueOp.ofText? operator).map fun op => .value ⟨subject, op, value⟩

/-- The condition that the constraint describes, if its path, operator and value are of use. -/
def condition? (c : Constraint) : Option Condition :=
  c.positiveCondition?.map fun condition =>
    if c.isNegative then .negation condition else condition

end Constraint

end NodeQuery
