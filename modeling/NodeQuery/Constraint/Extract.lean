/-
Constraints in a text.

The constraints stand between `[CONSTRAINTS]` and `[/CONSTRAINTS]`, or else anywhere. Each
has a block of lines: the blocks are cut at headers such as `Constraint 1:`, or at blank
lines if there is no header, or else where an item of a list names a field that the block
has already. What does not describe a constraint is left out.

* `constraintsPart`: the part of a text in which constraints are looked for.
* `blocks`: the blocks of a text.
* `Constraint.ofBlock?`: the constraint that a block describes.
* `Constraint.dedupe`: constraints without repetitions.
* `extract`: the constraints in a text.
-/
import NodeQuery.Constraint
import NodeQuery.Constraint.Field
import NodeQuery.Settings.Reader

namespace NodeQuery

/-! ### Blocks -/

/-- The part of a text in which constraints are looked for. -/
def constraintsPart (text : List Char) : List Char :=
  let inside := do
    let (_, rest) ← Text.firstMatch? (Text.word "[constraints]".toList) text
    let (inside, _) ← Text.firstMatch? (Text.word "[/constraints]".toList) rest
    some inside
  Text.trimChars (inside.getD text)

/-- The header of a block: the word `Constraint`, a number and a colon. -/
def header : Text.Pattern := fun cs => do
  let rest ← Text.word "constraint".toList cs
  let rest ← Text.blanks rest
  let rest ← Text.run Text.isDecimalDigit rest
  Text.oneOf (· = ':') (rest.dropWhile Text.isBlank)

/-- A line feed, blanks, and the last line feed among these. -/
def blankLine : Text.Pattern
  | '\n' :: cs =>
    let gap := cs.takeWhile Text.isBlank
    if gap.contains '\n' then
      some (cs.drop (gap.length - (gap.reverse.takeWhile (· ≠ '\n')).length))
    else
      none
  | _ => none

/-- The lines of the block in hand and the blocks behind it, given the fields that the block
in hand has so far. An item that names one of them again begins a new block. -/
def itemBlocks (seen : List Field) : List (List Char) → List (List Char) × List (List (List Char))
  | [] => ([], [])
  | line :: rest =>
    match fieldLine? line with
    | none =>
      let (block, more) := itemBlocks seen rest
      (line :: block, more)
    | some (field, _) =>
      if isItemStart line && seen.contains field then
        let (block, more) := itemBlocks [field] rest
        ([], (line :: block) :: more)
      else
        let (block, more) := itemBlocks (field :: seen) rest
        (line :: block, more)

/-- The blocks of a text that has neither headers nor blank lines. -/
def blocksByItem (text : List Char) : List (List Char) :=
  let (block, more) := itemBlocks [] (Text.lines text)
  (if block.isEmpty then more else block :: more).map Text.joinLines

/-- The blocks of a text. -/
def blocks (text : List Char) : List (List Char) :=
  let byHeader := Text.splitAround header text
  let byBlank := Text.splitAround blankLine text
  if 1 < byHeader.length then byHeader
  else if 1 < byBlank.length then byBlank
  else blocksByItem text

/-! ### Constraints -/

namespace Constraint

/-- The action that a text names; one that is not known counts as an addition. -/
def Action.ofText (text : List Char) : Action :=
  let name := String.ofList (Text.lowerAll (Text.trimChars text))
  if ["edit", "e", "modify", "update"].contains name then .edit
  else if ["del", "delete", "remove", "d"].contains name then .delete
  else .add

/-- Whether a text says yes. -/
def saysYes (text : List Char) : Bool :=
  ["yes", "true", "y", "1"].contains (String.ofList (Text.lowerAll text))

/-- A value on one line. If it holds a `;`, only its line feeds are replaced. -/
def valueLine (value : List Char) : List Char :=
  if value.contains ';' then Text.squeezeBreaks value else Text.squeezeBlanks value

/-- The constraint that a block describes. It must have a type and a path, and unless it is a
deletion, an operator and a value. Without a word on its sign, it is negative if it comes
from false positives. -/
def ofBlock? (origin : Origin) (block : List Char) : Option Constraint := do
  let fields := fieldTexts block
  let field? (f : Field) := (fields.lookup f).bind clean?
  let text? (f : Field) := (field? f).map String.ofList
  let action := Action.ofText (← field? .type)
  let path := Text.trimChars (Text.dropWhileEnd (· = '.') (← field? .path))
  if path.isEmpty then none
  let operator? := text? .operator
  let value? := (field? .value).map fun value => String.ofList (valueLine value)
  let isNegative := ((field? .isNegative).map saysYes).getD (origin = .falsePositive)
  let path := String.ofList path
  match action with
  | .delete =>
    some ⟨path, operator?, none, .delete, isNegative, (text? .formerValue).or value?, origin⟩
  | .edit =>
    some ⟨path, some (← operator?), some (← value?), .edit, isNegative, text? .formerValue,
      origin⟩
  | .add => some ⟨path, some (← operator?), some (← value?), .add, isNegative, none, origin⟩

/-- What a constraint is about: its path and its action. -/
def topic (c : Constraint) : String × Action :=
  (c.path, c.action)

/-- What a constraint says: its path, its action, its operator and its value. -/
def content (c : Constraint) : String × Action × Option String × Option String :=
  (c.path, c.action, c.operator?, c.value?)

/-- Constraints without repetitions, given the contents and the topics of those in front of them.
One that repeats a content is left out, and then one that repeats a topic. -/
def dedupeAfter (contents : List (String × Action × Option String × Option String))
    (topics : List (String × Action)) : List Constraint → List Constraint
  | [] => []
  | c :: cs =>
    if contents.contains c.content then dedupeAfter contents topics cs
    else if topics.contains c.topic then dedupeAfter (c.content :: contents) topics cs
    else c :: dedupeAfter (c.content :: contents) (c.topic :: topics) cs

/-- Constraints without repetitions. -/
def dedupe (cs : List Constraint) : List Constraint :=
  dedupeAfter [] [] cs

end Constraint

/-- The constraints in a text. -/
def extract (settings : Settings) (origin : Constraint.Origin) (text : String) :
    List Constraint :=
  let found := (blocks (constraintsPart text.toList)).filterMap (Constraint.ofBlock? origin)
  if settings.dedupeConstraints then Constraint.dedupe found else found

end NodeQuery
