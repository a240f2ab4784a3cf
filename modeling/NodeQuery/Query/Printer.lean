/-
Writing queries.

A value may be any text. If it has the shape of one literal or of an identifier, it is
written as it is; any other value is written as a string. Every query ends with a `;`, nested
ones included. A nested query that says no more than what its entity is has no `where`.

* `Literal.quote`: a text as a string literal.
* `Literal.isQuoted`, `Literal.unquote`: string literals, and what stands between their quotes.
* `Literal.isNumeral`, `Literal.isWord`: numbers and words.
* `Literal.escape`: the text that is written for a value.
* `Query.render`: a query as text, as an outermost or as a nested one.
* `Condition.render`: a condition as text.
* `roundTrip`: a text read and written again.
-/
import NodeQuery.Query.Parser

namespace NodeQuery

/-! ### Literals -/

namespace Literal

/-- A character between double quotes. -/
def quoteChar (c : Char) : List Char :=
  match c with
  | '\\' => ['\\', '\\']
  | '"' => ['\\', '"']
  | '\'' => ['\\', '\'']
  | '\n' => ['\\', 'n']
  | '\t' => ['\\', 't']
  | '\r' => ['\\', 'r']
  | _ => [c]

/-- A text as a string literal in double quotes. -/
def quote (s : String) : String :=
  String.ofList ('"' :: (s.toList.flatMap quoteChar ++ ['"']))

/-- Whether characters are one string literal and nothing else. -/
def isQuotedChars : List Char → Bool
  | [] => false
  | c :: cs =>
    (c = '"' || c = '\'') && Lexeme.quotedExtent c (.body 0) none cs = (cs.length, none)

/-- Whether a text is one string literal and nothing else. -/
def isQuoted (s : String) : Bool :=
  isQuotedChars s.toList

/-- What stands between the quotes of a string literal; any other text is itself. -/
def unquote (s : String) : String :=
  if isQuoted s then String.ofList (s.toList.tail.dropLast) else s

/-- What stands behind digits, of which there has to be one. -/
def behindDigits? (cs : List Char) : Option (List Char) :=
  if cs.head?.any Char.isDigit then some (cs.dropWhile Char.isDigit) else none

/-- What stands behind a decimal fraction, which may be missing; a point needs a digit. -/
def behindFraction? : List Char → Option (List Char)
  | '.' :: cs => behindDigits? cs
  | cs => some cs

/-- What stands behind the sign of an exponent, which may be missing. -/
def behindSign : List Char → List Char
  | '+' :: cs => cs
  | '-' :: cs => cs
  | cs => cs

/-- What stands behind an exponent, which may be missing; its mark needs a digit. -/
def behindExponent? : List Char → Option (List Char)
  | 'e' :: cs => behindDigits? (behindSign cs)
  | 'E' :: cs => behindDigits? (behindSign cs)
  | cs => some cs

/-- What stands behind a minus, which may be missing. -/
def behindMinus : List Char → List Char
  | '-' :: cs => cs
  | cs => cs

/-- Whether characters are one number and nothing else: digits, behind a minus or not, that a
fraction and an exponent may follow. -/
def isNumeral (cs : List Char) : Bool :=
  (behindDigits? (behindMinus cs)).bind (fun rest => (behindFraction? rest).bind behindExponent?)
    = some []

/-- Whether characters are one word. -/
def isWord : List Char → Bool
  | [] => false
  | c :: cs => Lexeme.isWordStart c && cs.all Lexeme.isWordPart

/-- Whether a text is a word that can stand for a value: an identifier or a truth value. -/
def isPlainWord (s : String) : Bool :=
  isWord s.toList && (Token.isBoolean s || (Token.keyword? s).isNone)

/-- The text that is written for a value. -/
def escape (value : String) : String :=
  if isQuoted value || isNumeral value.toList || isPlainWord value then value else quote value

end Literal

/-! ### Queries -/

/-- An entity as it is declared. -/
def Entity.render (e : Entity) : String :=
  match e.alias? with
  | some name => e.nodeType ++ " " ++ name
  | none => e.nodeType

/-- A comparison as text. -/
def ValueMatch.render (m : ValueMatch) : String :=
  m.subject.path ++ " " ++ m.operator.spelling ++ " " ++ Literal.escape m.value

/-- A nested query as text, given the text of its condition, which is left out if it says
nothing new. -/
def Entity.renderNested (e : Entity) (condition : Condition) (text : String) : String :=
  e.render ++ (if condition.isPlaceholder e then "" else " where " ++ text) ++ " ;"

namespace Condition

mutual

/-- A condition as text. -/
def render : Condition → String
  | value m => m.render
  | relation a op e c _ => a.path ++ " " ++ op.spelling ++ " " ++ e.renderNested c c.render
  | negation c => "not(" ++ c.render ++ ")"
  | group k cs => k.spelling ++ "(" ++ ", ".intercalate (renderAll cs) ++ ")"

/-- Conditions as texts. -/
def renderAll : List Condition → List String
  | [] => []
  | c :: cs => c.render :: renderAll cs

end

end Condition

namespace Query

/-- An outermost query as text. -/
def render (q : Query) : String :=
  q.entity.render ++ " where " ++ q.condition.render ++ " ;"

/-- A nested query as text. -/
def renderNested (q : Query) : String :=
  q.entity.renderNested q.condition q.condition.render

end Query

/-- A leaf of a condition as text. -/
def Atomic.render (a : Atomic) : String :=
  (Condition.ofAtomic a).render

/-- A text that can be read as a query, written anew. -/
def roundTrip (source : String) : Except (List ParseError) String :=
  (parse source).map Query.render

end NodeQuery
