/-
The operators of conditions.

* `Connective`: joins conditions.
* `ValueOp`: compares an attribute with a literal.
* `RelOp`: relates an attribute to a nested query.

Each operator has one spelling, in which it is written; it is read in any case of its
letters and with blanks around it.
-/
import NodeQuery.Text

namespace NodeQuery

/-- How the conditions of a group are joined. -/
inductive Connective where
  | conj
  | disj
  deriving DecidableEq, Repr

/-- The word for a connective. -/
def Connective.spelling : Connective → String
  | conj => "and"
  | disj => "or"

/-- The comparisons of an attribute with a literal. -/
inductive ValueOp where
  | matching
  | is
  | equal
  | unequal
  deriving DecidableEq, Repr

namespace ValueOp

/-- The canonical way to write the operator. -/
def spelling : ValueOp → String
  | matching => "match"
  | is => "is"
  | equal => "=="
  | unequal => "!="

/-- Every operator that compares with a literal. -/
def all : List ValueOp :=
  [matching, is, equal, unequal]

/-- The operator that a text names, in any case and with blanks around it. -/
def ofText? (s : String) : Option ValueOp :=
  all.find? fun op => Text.sameWord (Text.trim s) op.spelling

end ValueOp

/-- The relations between an attribute and a nested query. -/
inductive RelOp where
  | contains
  | inside
  | outside
  deriving DecidableEq, Repr

namespace RelOp

/-- The canonical way to write the operator. -/
def spelling : RelOp → String
  | contains => "contain"
  | inside => "in"
  | outside => "notIn"

/-- Every operator that relates to a nested query. -/
def all : List RelOp :=
  [contains, inside, outside]

/-- The operator that a text names, in any case and with blanks around it. -/
def ofText? (s : String) : Option RelOp :=
  all.find? fun op => Text.sameWord (Text.trim s) op.spelling

end RelOp

/-- What is said of a text that names no operator. -/
def unknownOperatorMessage (text : String) : String :=
  "unknown operator '" ++ text ++ "'"

end NodeQuery
