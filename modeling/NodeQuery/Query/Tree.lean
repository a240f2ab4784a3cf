/-
Queries and constraints as JSON values.

* `Json`: the values, without fractions. The fields of an object are kept in order.
* `Json.pretty`: the text of a value, each item and each field on a line of its own, two
  spaces deeper than what it is part of.
* `Query.toJson`: a query with its places, in the order in which its parts are declared.
* `Constraint.listing`: numbered constraints, the fields of each in alphabetical order.
-/
import NodeQuery.Constraint

namespace NodeQuery

/-! ### Values and their texts -/

/-- A JSON value. -/
inductive Json where
  | null
  | bool (b : Bool)
  | number (n : Nat)
  | string (s : String)
  | array (items : List Json)
  | object (fields : List (String × Json))

namespace Json

/-- A text or nothing. -/
def ofOption (s : Option String) : Json :=
  (s.map string).getD null

/-- A character inside a JSON string. -/
def quoteChar (c : Char) : List Char :=
  match c with
  | '"' => ['\\', '"']
  | '\\' => ['\\', '\\']
  | '\n' => ['\\', 'n']
  | '\r' => ['\\', 'r']
  | '\t' => ['\\', 't']
  | '\x08' => ['\\', 'b']
  | '\x0c' => ['\\', 'f']
  | _ =>
    if c.toNat < 0x20 then
      let digits := Nat.toDigits 16 c.toNat
      '\\' :: 'u' :: (List.replicate (4 - digits.length) '0' ++ digits)
    else
      [c]

/-- A JSON string. -/
def quote (s : String) : String :=
  String.ofList ('"' :: (s.toList.flatMap quoteChar ++ ['"']))

/-- The start of a line at a depth. -/
def indent (depth : Nat) : String :=
  String.ofList (List.replicate (2 * depth) ' ')

/-- Lines of a depth between an opening and a closing bracket. -/
def bracket (opening closing : String) (depth : Nat) (lines : List String) : String :=
  if lines.isEmpty then
    opening ++ closing
  else
    opening ++ "\n" ++ ",\n".intercalate (lines.map (indent (depth + 1) ++ ·))
      ++ "\n" ++ indent depth ++ closing

mutual

/-- The text of a value at a depth. -/
def render (depth : Nat) : Json → String
  | null => "null"
  | bool b => if b then "true" else "false"
  | number n => toString n
  | string s => quote s
  | array items => bracket "[" "]" depth (renderItems (depth + 1) items)
  | object fields => bracket "\x7b" "\x7d" depth (renderFields (depth + 1) fields)

/-- The texts of items at a depth. -/
def renderItems (depth : Nat) : List Json → List String
  | [] => []
  | item :: items => item.render depth :: renderItems depth items

/-- The texts of fields at a depth. -/
def renderFields (depth : Nat) : List (String × Json) → List String
  | [] => []
  | (name, value) :: fields =>
    (quote name ++ ": " ++ value.render depth) :: renderFields depth fields

end

/-- The text of a value. -/
def pretty (value : Json) : String :=
  value.render 0

end Json

/-! ### Queries and constraints -/

/-- A range of bytes as a JSON value. -/
def Span.toJson (s : Span) : Json :=
  .object [("start", .number s.start), ("end", .number s.stop)]

/-- The places of the parts of a query as a JSON value. -/
def QuerySpans.toJson (s : QuerySpans) : Json :=
  let json (span : Option Span) : Json := (span.map Span.toJson).getD .null
  .object [("entity", json s.entity), ("where_keyword", json s.whereWord),
    ("condition", json s.condition)]

/-- The declaration of an entity as a JSON value. -/
def Entity.toJson (e : Entity) : Json :=
  .object [("node_type", .string e.nodeType), ("alias", Json.ofOption e.alias?)]

/-- An attribute as a JSON value. -/
def Attribute.toJson (a : Attribute) : Json :=
  .object [("alias", .string a.name), ("properties", .array (a.properties.map .string))]

/-- A comparison as a JSON value. -/
def ValueMatch.toJson (m : ValueMatch) : Json :=
  .object [("attribute", m.subject.toJson), ("operator", .string m.operator.spelling),
    ("value", .string m.value)]

/-- A query as a JSON value, given that of its condition. -/
def Query.jsonOf (e : Entity) (condition : Json) (spans : QuerySpans) : Json :=
  .object [("entity", e.toJson), ("condition", condition), ("spans", spans.toJson)]

namespace Condition

mutual

/-- A condition as a JSON value. -/
def toJson : Condition → Json
  | value m => .object [("atomic", .object [("value", m.toJson)])]
  | relation a op e c spans =>
    .object [("atomic", .object [("rel", .object [("attribute", a.toJson),
      ("operator", .string op.spelling), ("query", Query.jsonOf e c.toJson spans)])])]
  | negation c => .object [("not", c.toJson)]
  | group k cs => .object [(k.spelling, .array (allToJson cs))]

/-- Conditions as JSON values. -/
def allToJson : List Condition → List Json
  | [] => []
  | c :: cs => c.toJson :: allToJson cs

end

end Condition

/-- A query as a JSON value. -/
def Query.toJson (q : Query) : Json :=
  Query.jsonOf q.entity q.condition.toJson q.spans

/-- A constraint under a number as a JSON value. -/
def Constraint.toJson (number : Nat) (c : Constraint) : Json :=
  .object [("index", .number number), ("is_negative", .bool c.isNegative),
    ("operator", Json.ofOption c.operator?), ("original_value", Json.ofOption c.former?),
    ("path", .string c.path), ("type", .string c.action.name), ("value", Json.ofOption c.value?)]

/-- The text that lists constraints, numbered from one. -/
def Constraint.listing (cs : List Constraint) : String :=
  (Json.array (cs.zipIdx.map fun (c, index) => c.toJson (index + 1))).pretty

end NodeQuery
