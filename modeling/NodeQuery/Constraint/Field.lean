/-
The fields of a constraint in a text.

A field stands on a line of its own: perhaps a dash, the name of the field, a colon or a
dash, and its text. Lines behind it that name no field go on with its text.

* `Field`: the fields; `Field.words`: what they are called.
* `fieldLine?`: the field on a line, with its text.
* `fieldTexts`: all fields of a block of lines, with their texts.
* `clean?`: the text of a field without blanks around it, and without the name of a field
  at its end.
-/
import NodeQuery.Text.Pattern

namespace NodeQuery

/-- The fields of a constraint. -/
inductive Field where
  | type
  | path
  | operator
  | formerValue
  | value
  | isNegative
  deriving DecidableEq, Repr

namespace Field

/-- The words of a field's name, in small letters. -/
def words : Field → List (List Char)
  | type => ["type".toList]
  | path => ["path".toList]
  | operator => ["operator".toList]
  | formerValue => ["original".toList, "value".toList]
  | value => ["value".toList]
  | isNegative => ["is".toList, "negative".toList]

/-- All fields. -/
def all : List Field :=
  [type, path, operator, formerValue, value, isNegative]

/-- The field of which a name, as it is written, is the name. A name that is not spelled as
any other field counts as that of the value. -/
def ofName (name : List Char) : Field :=
  let spelled := Text.squeezeBlanks (Text.lowerAll name)
  (all.find? fun f => spelled = [' '].intercalate f.words).getD value

/-- The name of one of several fields at the front of a text: the name as it is written, and
the text behind it. -/
def nameIn? (fields : List Field) (cs : List Char) : Option (List Char × List Char) :=
  (fields.findSome? fun f => Text.words f.words cs).map fun rest =>
    (cs.take (cs.length - rest.length), rest)

end Field

/-! ### Lines -/

/-- A line without the blanks and the one dash in front of it. -/
def withoutDash (line : List Char) : List Char :=
  match line.dropWhile Text.isBlank with
  | '-' :: cs => cs.dropWhile Text.isBlank
  | cs => cs

/-- The field on a line, with its text. -/
def fieldLine? (line : List Char) : Option (Field × List Char) := do
  let (name, rest) ← Field.nameIn? Field.all (withoutDash line)
  let text ← Text.oneOf (fun c => c = ':' || c = '-') (rest.dropWhile Text.isBlank)
  some (Field.ofName name, text.dropWhile Text.isBlank)

/-- Whether a line is an item of a list that names the type or the path. -/
def isItemStart (line : List Char) : Bool :=
  match line.dropWhile Text.isBlank with
  | '-' :: cs =>
    ((Field.nameIn? [.type, .path] (cs.dropWhile Text.isBlank)).bind fun (_, rest) =>
      Text.oneOf (fun c => c = ':' || c = '|' || c = '-') (rest.dropWhile Text.isBlank)).isSome
  | _ => false

/-- The fields on lines, with their texts, and the text on the lines in front of the first
field. Blank lines are no part of a text. -/
def fieldsOfLines : List (List Char) → List Char × List (Field × List Char)
  | [] => ([], [])
  | line :: rest =>
    let (text, fields) := fieldsOfLines rest
    match fieldLine? line with
    | some (field, start) => ([], (field, start ++ text) :: fields)
    | none =>
      if (Text.trimChars line).isEmpty then (text, fields)
      else ('\n' :: (line ++ text), fields)

/-- The fields of a block, with their texts, in the order of the block. -/
def fieldTexts (block : List Char) : List (Field × List Char) :=
  (fieldsOfLines (Text.lines block)).2

/-! ### Texts -/

/-- The name of a field at the very end of a text, with blanks in front of it, and perhaps a
colon. -/
def endingName (cs : List Char) : Option (List Char) := do
  let rest ← Text.blanks cs
  let behind ← Field.all.findSome? fun f => do
    let behind ← Text.words f.words rest
    let behind := behind.dropWhile Text.isBlank
    let behind := match behind with
      | ':' :: cs => cs.dropWhile Text.isBlank
      | _ => behind
    if behind.isEmpty then some behind else none
  some behind

/-- The text of a field without blanks around it, and without the name of a field at its
end; missing if nothing is left. -/
def clean? (text : List Char) : Option (List Char) :=
  let text := Text.trimChars text
  let text := match Text.firstMatch? endingName text with
    | some (before, _) => Text.trimChars before
    | none => text
  if text.isEmpty then none else some text

end NodeQuery
