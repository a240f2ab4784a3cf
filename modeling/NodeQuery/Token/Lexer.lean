/-
From text to tokens.

A text is first cut into pieces, each of them trivia or a lexeme; the pieces, put together, are the
text again. Then the places of the lexemes are worked out from the lengths of the pieces in front of
them.

Trivia is made of blanks, of comments that begin with two slashes and end before the next line feed,
and of comments between `/*` and the first `*/` behind it. A comment that is not closed reaches to
the end of the text.

A lexeme is read from its first character `c` and the characters `cs` behind it; what is returned
beside its kind is the number of characters of `cs` that belong to it. A lexeme never fails to be
read: text that is no token becomes an error token.

* `Trivia.Mode`: what the characters ahead are read as.
* `Trivia.extent`: the number of characters of trivia in front of a text.
* `Lexeme.Fault`: what can be wrong with a lexeme.
* `Lexeme.wordExtent`, `Lexeme.numeralExtent`, `Lexeme.quotedExtent`: how far words, numbers and
  strings reach.
* `Lexeme.read`: the kind and the extent of the lexeme in front of a text.
* `Piece`, `pieces`: trivia or a lexeme, with its characters, and the pieces of a text.
* `tokenize`: the tokens of a text, of which the last and only the last is the end of input.
-/
import NodeQuery.Token

namespace NodeQuery

/-! ## Trivia -/

namespace Trivia

/-- What the characters ahead are read as. -/
inductive Mode where
  | code
  | lineComment
  | blockComment
  deriving DecidableEq, Repr

/-- The number of characters in front of a text that are trivia. -/
def extent : Mode → List Char → Nat
  | .code, '/' :: '/' :: cs => extent .lineComment cs + 2
  | .code, '/' :: '*' :: cs => extent .blockComment cs + 2
  | .code, c :: cs => if Text.isBlank c then extent .code cs + 1 else 0
  | .lineComment, '\n' :: cs => extent .code cs + 1
  | .lineComment, _ :: cs => extent .lineComment cs + 1
  | .blockComment, '*' :: '/' :: cs => extent .code cs + 2
  | .blockComment, _ :: cs => extent .blockComment cs + 1
  | _, [] => 0

end Trivia

/-! ## Lexemes -/

namespace Lexeme

/-- What is wrong with a text that should have been a token. -/
inductive Fault where
  | loneEquals
  | stray (c : Char)
  | unterminated
  | badEscape (c : Char)
  | badUnicodeEscape
  deriving DecidableEq, Repr

/-- The words for a fault. -/
def Fault.message : Fault → String
  | loneEquals => "Unexpected character: = (did you mean '=='?)"
  | stray c => "Unexpected character: " ++ c.toString
  | unterminated => "Unterminated string"
  | badEscape c => "Invalid escape sequence: \\" ++ c.toString
  | badUnicodeEscape => "Invalid unicode escape: expected 4 hex digits"

/-! ### Words -/

/-- The letters, in ASCII, and the underscore begin words. -/
def isWordStart (c : Char) : Bool :=
  c.isAlpha || c = '_'

/-- The letters and digits, in ASCII, and the underscore continue words. -/
def isWordPart (c : Char) : Bool :=
  c.isAlphanum || c = '_'

/-- The length of a word's part in front of `cs`. -/
def wordExtent (cs : List Char) : Nat :=
  (cs.takeWhile isWordPart).length

/-- The kind of a word: a reserved word, a truth value, or else an identifier. -/
def wordKind (word : String) : Token.Kind :=
  (Token.keyword? word).getD (.identifier word)

/-! ### Numbers -/

/-- The number of decimal digits in front of `cs`. -/
def digitsExtent (cs : List Char) : Nat :=
  (cs.takeWhile Char.isDigit).length

/-- The length of a decimal fraction: a point with at least one digit behind it. -/
def fractionExtent : List Char → Nat
  | '.' :: cs => match digitsExtent cs with
    | 0 => 0
    | n + 1 => n + 2
  | _ => 0

/-- The length of an exponent: a mark, a sign that may be missing, and at least one digit. -/
def exponentExtent : List Char → Nat
  | mark :: cs =>
    if mark = 'e' || mark = 'E' then
      let signed := match cs with
        | '+' :: _ => 1
        | '-' :: _ => 1
        | _ => 0
      match digitsExtent (cs.drop signed) with
      | 0 => 0
      | n + 1 => n + signed + 2
    else
      0
  | [] => 0

/-- The length of an unsigned number in front of `cs`, whose leading digits are taken even
if there are none. -/
def numeralExtent (cs : List Char) : Nat :=
  let whole := digitsExtent cs
  let mantissa := whole + fractionExtent (cs.drop whole)
  mantissa + exponentExtent (cs.drop mantissa)

/-! ### Strings -/

/-- How the next character of a string is read: after a backslash, as text of which
`owed` characters should be the digits of a Unicode escape, or not at all since the
closing quote has been read. -/
inductive QuotedMode where
  | escape
  | body (owed : Nat)
  | closed
  deriving DecidableEq, Repr

/-- The sixteen digits of hexadecimal numbers, in both cases. -/
def isHexDigit (c : Char) : Bool :=
  c.isDigit || ('a' ≤ c && c ≤ 'f') || ('A' ≤ c && c ≤ 'F')

/-- The characters that stand for themselves or for a control character after a backslash. -/
def isSimpleEscape (c : Char) : Bool :=
  ['"', '\'', '\\', 'n', 't', 'r', 'b', 'f'].contains c

/-- How the string goes on after `c` in its text. -/
def afterText (quote c : Char) : QuotedMode :=
  if c = quote then .closed else if c = '\\' then .escape else .body 0

/-- How the string goes on after `c`, and the fault that `c` gives rise to. A character
that should have been a hexadecimal digit and is none is read as text. -/
def quotedStep (quote : Char) (mode : QuotedMode) (c : Char) : QuotedMode × Option Fault :=
  match mode with
  | .escape =>
    if isSimpleEscape c then (.body 0, none)
    else if c = 'u' then (.body 4, none)
    else (.body 0, some (.badEscape c))
  | .body 0 => (afterText quote c, none)
  | .body (owed + 1) =>
    if isHexDigit c then (.body owed, none)
    else (afterText quote c, some .badUnicodeEscape)
  | .closed => (.closed, none)

/-- What a string's text amounts to: its length, closing quote included, and the first
fault in it. A string that is not closed reaches to the end of the text. -/
def quotedExtent (quote : Char) (mode : QuotedMode) (fault : Option Fault) :
    List Char → Nat × Option Fault
  | [] => if mode = .closed then (0, fault) else (0, some .unterminated)
  | c :: cs =>
    if mode = .closed then
      (0, fault)
    else
      let (mode, new) := quotedStep quote mode c
      let (n, fault) := quotedExtent quote mode (fault.or new) cs
      (n + 1, fault)

/-! ### Lexemes -/

/-- The kind of the lexeme that begins with `c` and goes on in `cs`, and the number of
characters of `cs` that belong to it. -/
def read (c : Char) (cs : List Char) : Token.Kind × Nat :=
  let taken (n : Nat) : String := String.ofList (c :: cs.take n)
  let stray : Token.Kind := .error (Fault.stray c).message
  match c with
  | '(' => (.opening, 0)
  | ')' => (.closing, 0)
  | ',' => (.comma, 0)
  | '.' => (.dot, 0)
  | ';' => (.semicolon, 0)
  | '=' =>
    if cs.head? = some '=' then (.valueOp .equal, 1)
    else (.error Fault.loneEquals.message, 0)
  | '!' =>
    if cs.head? = some '=' then (.valueOp .unequal, 1) else (stray, 0)
  | '-' =>
    if cs.head?.any Char.isDigit then
      (.number (taken (numeralExtent cs)), numeralExtent cs)
    else
      (stray, 0)
  | _ =>
    if c = '"' || c = '\'' then
      match quotedExtent c (.body 0) none cs with
      | (n, none) => (.string (taken n), n)
      | (n, some fault) => (.error fault.message, n)
    else if c.isDigit then
      (.number (taken (numeralExtent cs)), numeralExtent cs)
    else if isWordStart c then
      (wordKind (taken (wordExtent cs)), wordExtent cs)
    else
      (stray, 0)

end Lexeme

/-! ## Pieces and tokens -/

/-- A piece of a text: trivia, or a lexeme and its kind. -/
inductive Piece where
  | trivia (text : List Char)
  | lexeme (kind : Token.Kind) (text : List Char)
  deriving DecidableEq, Repr

/-- The characters of the piece. -/
def Piece.text : Piece → List Char
  | trivia text => text
  | lexeme _ text => text

/-- The pieces of a text, from its beginning to its end. -/
def pieces : List Char → List Piece
  | [] => []
  | c :: cs =>
    match Trivia.extent .code (c :: cs) with
    | n + 1 => .trivia (c :: cs.take n) :: pieces (cs.drop n)
    | 0 =>
      let (kind, n) := Lexeme.read c cs
      .lexeme kind (c :: cs.take n) :: pieces (cs.drop n)
termination_by cs => cs.length

/-- The pieces of a text, put together, are the text. -/
theorem flatMap_text_pieces (cs : List Char) : (pieces cs).flatMap Piece.text = cs := by
  induction cs using pieces.induct with
  | case1 => simp [pieces]
  | case2 c cs n h ih =>
    rw [pieces, h]
    simp only [List.flatMap_cons, Piece.text, ih, List.cons_append, List.take_append_drop]
  | case3 c cs h kind n hread ih =>
    rw [pieces, h]
    simp only [hread, List.flatMap_cons, Piece.text, ih, List.cons_append,
      List.take_append_drop]

/-- The tokens of pieces of which the first stands at `p`, and the end of input behind them. -/
def place (p : Position) : List Piece → List Token
  | [] => [⟨.endOfInput, p, p.offset, ""⟩]
  | .trivia text :: rest => place (p.after text) rest
  | .lexeme kind text :: rest =>
    ⟨kind, p, (p.after text).offset, String.ofList text⟩ :: place (p.after text) rest

/-- The tokens of a text. -/
def tokenize (source : String) : List Token :=
  place ⟨0, 1, 1⟩ (pieces source.toList)

end NodeQuery
