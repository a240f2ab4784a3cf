/-
Edits of conditions.

A selector names leaves of a condition by the path of their attribute, and perhaps by their
operator and by the value that is compared with. Edits act on the first leaf selected, in
the order of the leaves; nested queries are not looked into.

* `Selector.selects`: whether a leaf is selected.
* `Condition.find?`, `Condition.remove`, `Condition.update?`, `Condition.join`: look for a
  leaf, take it out, change the value that it compares with, add a condition.
-/
import NodeQuery.Query.Printer

namespace NodeQuery

/-- Names leaves of a condition. What is missing is not asked for. -/
structure Selector where
  path : String
  operator? : Option String := none
  former? : Option String := none
  deriving DecidableEq, Repr

namespace Selector

/-- Whether a value is the one asked for: as it is, as it would be written, or by what
stands between its quotes. -/
def selectsText (former? : Option String) (value : String) : Bool :=
  match former?.map Text.trim with
  | none => true
  | some former =>
    value = former || Literal.escape value = former
      || Literal.unquote value = Literal.unquote former

/-- Whether an operator is the one asked for, in any case of its letters. -/
def selectsOperator (s : Selector) (spelling : String) : Bool :=
  match s.operator? with
  | none => true
  | some text => Text.sameWord spelling (Text.trim text)

/-- Whether a comparison is selected. -/
def selectsValue (s : Selector) (m : ValueMatch) : Bool :=
  m.subject.path = s.path && s.selectsOperator m.operator.spelling
    && selectsText s.former? m.value

/-- Whether a leaf is selected. The value asked for is of no account to a relation. -/
def selects (s : Selector) : Atomic → Bool
  | .value m => s.selectsValue m
  | .relation a op _ => a.path = s.path && s.selectsOperator op.spelling

end Selector

namespace Condition

/-- The first leaf selected. -/
def find? (s : Selector) (c : Condition) : Option Atomic :=
  c.atomics.find? s.selects

/-! ### Removal -/

/-- What is left of a group with the given members: nothing if it has none, and the member
itself if it has one. -/
def regroup (k : Connective) : List Condition → Option Condition
  | [] => none
  | [c] => some c
  | cs => some (.group k cs)

mutual

/-- What is left of a condition without the first leaf selected, and whether there is one.
Groups that do not have two members fall together. -/
def remove (s : Selector) : Condition → Option Condition × Bool
  | value m => if s.selects (.value m) then (none, true) else (some (.value m), false)
  | relation a op e c spans =>
    if s.selects (.relation a op ⟨e, c, spans⟩) then (none, true)
    else (some (.relation a op e c spans), false)
  | negation c =>
    let (rest, hit) := c.remove s
    (rest.map .negation, hit)
  | group k cs =>
    let (rest, hit) := removeFromAll s cs
    (regroup k rest, hit)

/-- What is left of conditions without the first leaf selected in them, and whether there is
one. Those behind it are not looked at. -/
def removeFromAll (s : Selector) : List Condition → List Condition × Bool
  | [] => ([], false)
  | c :: cs =>
    match c.remove s with
    | (rest, true) => (rest.toList ++ cs, true)
    | (rest, false) =>
      let (more, hit) := removeFromAll s cs
      (rest.toList ++ more, hit)

end

/-! ### Update -/

/-- A new value in the place of an old one: if that was a string, it is written as a string. -/
def carryQuotes (old new : String) : String :=
  if Literal.isQuoted old && !Literal.isQuoted new then Literal.quote new else new

mutual

/-- A condition with a new value in the first comparison selected, if there is one. -/
def update? (s : Selector) (new : String) : Condition → Option Condition
  | value m =>
    if s.selectsValue m then
      some (.value ⟨m.subject, m.operator, carryQuotes m.value (Text.trim new)⟩)
    else
      none
  | relation .. => none
  | negation c => (c.update? s new).map .negation
  | group k cs => (updateInAll? s new cs).map (.group k)

/-- Conditions with a new value in the first comparison selected, if there is one. -/
def updateInAll? (s : Selector) (new : String) : List Condition → Option (List Condition)
  | [] => none
  | c :: cs =>
    match c.update? s new with
    | some c' => some (c' :: cs)
    | none => (updateInAll? s new cs).map (c :: ·)

end

/-- A condition with a new value in the first comparison selected; itself if there is none. -/
def update (s : Selector) (new : String) (c : Condition) : Condition :=
  (c.update? s new).getD c

/-! ### Addition -/

/-- A condition joined with a new one, which becomes the last member of a group. -/
def join (k : Connective) (existing : Option Condition) (new : Condition) : Condition :=
  match existing with
  | none => new
  | some (.group l cs) => if l = k then .group k (cs ++ [new]) else .group k [.group l cs, new]
  | some c => .group k [c, new]

end Condition

end NodeQuery
