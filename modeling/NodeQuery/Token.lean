/-
Places in a text, and the tokens of the query language.

An offset counts the bytes of the text's UTF-8 form, a column counts characters, and only
the line feed starts a new line.

* `Position`: a place in a text.
* `Position.after`: the place behind a piece of text that starts at a given place.
* `Span`: a range of bytes.
* `Token.Kind`: what a token is. Literals and identifiers keep the lexeme as it was
  written, quotes included; an error token keeps what is wrong with the text.
* `Token`: a kind together with the place where the token stands.
* `keyword?`: the kind of a lexeme that is a reserved word.
-/
import NodeQuery.Operator

namespace NodeQuery

/-! ### Places -/

/-- A place in a text: the bytes in front of it, and the line and column to show for it,
both counted from one. -/
structure Position where
  offset : Nat := 0
  line : Nat := 1
  column : Nat := 1
  deriving DecidableEq, Repr

namespace Position

/-- The place behind the character `c` that stands at `p`. -/
def next (p : Position) (c : Char) : Position :=
  if c = '\n' then
    ⟨p.offset + c.utf8Size, p.line + 1, 1⟩
  else
    ⟨p.offset + c.utf8Size, p.line, p.column + 1⟩

/-- The place behind the characters `cs` that stand at `p`. -/
def after (p : Position) (cs : List Char) : Position :=
  cs.foldl next p

@[simp] theorem after_nil (p : Position) : p.after [] = p := rfl

@[simp] theorem after_cons (p : Position) (c : Char) (cs : List Char) :
    p.after (c :: cs) = (p.next c).after cs := rfl

@[simp] theorem after_append (p : Position) (as bs : List Char) :
    p.after (as ++ bs) = (p.after as).after bs :=
  List.foldl_append

end Position

/-- The bytes of a text from the offset `start` up to the offset `stop`, which is left out. -/
structure Span where
  start : Nat
  stop : Nat
  deriving DecidableEq, Repr

namespace Span

/-- The number of bytes in the range; none when it stops before it starts. -/
def length (s : Span) : Nat :=
  s.stop - s.start

/-- A range that holds no byte. -/
def isEmpty (s : Span) : Bool :=
  s.length = 0

end Span

/-! ### Tokens -/

namespace Token

/-- What a token is. -/
inductive Kind where
  | whereWord
  | notWord
  | connective (k : Connective)
  | valueOp (op : ValueOp)
  | relOp (op : RelOp)
  | opening
  | closing
  | comma
  | dot
  | semicolon
  | string (raw : String)
  | number (raw : String)
  | boolean (raw : String)
  | identifier (name : String)
  | error (message : String)
  | endOfInput
  deriving DecidableEq, Repr

namespace Kind

/-- The canonical way to write a token of this kind; an error is written as its message. -/
def spelling : Kind → String
  | whereWord => "where"
  | notWord => "not"
  | connective k => k.spelling
  | valueOp op => op.spelling
  | relOp op => op.spelling
  | opening => "("
  | closing => ")"
  | comma => ","
  | dot => "."
  | semicolon => ";"
  | string raw => raw
  | number raw => raw
  | boolean raw => raw
  | identifier name => name
  | error message => message
  | endOfInput => ""

/-- The words for a token of this kind in a message. -/
def describe : Kind → String
  | string _ => "string literal"
  | number _ => "number"
  | boolean _ => "boolean"
  | identifier _ => "identifier"
  | error _ => "invalid token"
  | endOfInput => "end of input"
  | kind => "'" ++ kind.spelling ++ "'"

/-- The name of the kind. -/
def name : Kind → String
  | whereWord => "Where"
  | notWord => "Not"
  | connective .conj => "And"
  | connective .disj => "Or"
  | valueOp .matching => "Match"
  | valueOp .is => "Is"
  | valueOp .equal => "EqEq"
  | valueOp .unequal => "Ne"
  | relOp .contains => "Contain"
  | relOp .inside => "In"
  | relOp .outside => "NotIn"
  | opening => "LParen"
  | closing => "RParen"
  | comma => "Comma"
  | dot => "Dot"
  | semicolon => "Semicolon"
  | string _ => "String"
  | number _ => "Number"
  | boolean _ => "Boolean"
  | identifier _ => "Identifier"
  | error _ => "Error"
  | endOfInput => "Eof"

/-- The text that a token of this kind carries, if its kind carries one. -/
def payload? : Kind → Option String
  | string raw => some raw
  | number raw => some raw
  | boolean raw => some raw
  | identifier name => some name
  | error message => some message
  | _ => none

/-- The text of the literal that a token of this kind stands for as a value. -/
def value? : Kind → Option String
  | string raw => some raw
  | number raw => some raw
  | boolean raw => some raw
  | identifier name => some name
  | _ => none

end Kind

end Token

/-- A token: its kind, the place of its first character, the offset behind its last one,
and the text by which a report quotes it. -/
structure Token where
  kind : Token.Kind
  start : Position
  stop : Nat
  text : String := kind.spelling
  deriving DecidableEq, Repr

namespace Token

/-- The bytes on which the token stands. -/
def span (t : Token) : Span :=
  ⟨t.start.offset, t.stop⟩

/-- The reserved words, in any case of their letters. -/
def reserved : List Kind :=
  [.whereWord, .notWord, .connective .conj, .connective .disj, .valueOp .matching, .valueOp .is,
    .relOp .contains, .relOp .inside, .relOp .outside]

/-- Whether a text is one of the two truth values, in any case of its letters. -/
def isBoolean (s : String) : Bool :=
  Text.sameWord s "true" || Text.sameWord s "false"

/-- The kind of a lexeme that is a reserved word or a truth value. -/
def keyword? (lexeme : String) : Option Kind :=
  if isBoolean lexeme then
    some (.boolean lexeme)
  else
    reserved.find? fun kind => Text.sameWord lexeme kind.spelling

end Token

end NodeQuery
