/-
The values of a text of settings.

A text of settings is a TOML document. Of TOML, those values are read that a setting can
have: whole numbers, truth values and strings, in every way to write them, and tables and
arrays without contents, of which a connective can be the only key. Any other value is
refused.

* `Settings.Value`: a value.
* `Settings.skipGap`, `Settings.lineEnd?`, `Settings.skipLines`: what stands between values.
* `Settings.keyPath?`, `Settings.value?`: the keys and the value in front of a text.
-/
import NodeQuery.Text

namespace NodeQuery.Settings

/-- A value that a key can be assigned. -/
inductive Value where
  | integer (n : Int)
  | flag (b : Bool)
  | text (s : String)
  | empty
  | choice (key : String)
  deriving DecidableEq, Repr

/-! ### Blanks, comments and ends of lines -/

/-- A blank inside a line. -/
def isGap (c : Char) : Bool :=
  c = ' ' || c = '\t'

/-- What follows the blanks in front of a text. -/
def skipGap (cs : List Char) : List Char :=
  cs.dropWhile isGap

/-- A character that a comment may hold. -/
def isCommentPart (c : Char) : Bool :=
  c = '\t' || (0x20 ≤ c.toNat && c.toNat ≠ 0x7F)

/-- What follows a comment, if there is one in front of a text. -/
def skipComment : List Char → List Char
  | '#' :: cs => cs.dropWhile isCommentPart
  | cs => cs

/-- What follows the end of a line in front of a text. -/
def lineBreak? : List Char → Option (List Char)
  | '\n' :: cs => some cs
  | '\r' :: '\n' :: cs => some cs
  | _ => none

/-- What follows the rest of a line on which nothing more may stand than a comment. -/
def lineEnd? (cs : List Char) : Option (List Char) :=
  match skipComment (skipGap cs) with
  | [] => some []
  | rest => lineBreak? rest

/-- What follows blanks, comments and ends of lines; `fuel` bounds the number of lines. -/
def skipLines : Nat → List Char → List Char
  | 0, cs => cs
  | fuel + 1, cs =>
    match lineBreak? (skipComment (skipGap cs)) with
    | some rest => skipLines fuel rest
    | none => skipGap cs

/-! ### Strings -/

/-- The value of a digit in a base of up to thirty-six. -/
def digit? (base : Nat) (c : Char) : Option Nat :=
  let value := if c.isDigit then c.toNat - '0'.toNat else (Text.lower c).toNat - 'a'.toNat + 10
  if c.isAlphanum && value < base then some value else none

/-- The character with a code point in hexadecimal digits, if there is one. -/
def ofHex? (digits : List Char) : Option Char :=
  match digits.mapM (digit? 16) with
  | some ds =>
    let code := ds.foldl (fun n d => 16 * n + d) 0
    if code.isValidChar then some (Char.ofNat code) else none
  | none => none

/-- The character for which a letter stands behind a backslash. -/
def escaped? (c : Char) : Option Char :=
  [('b', '\x08'), ('t', '\t'), ('n', '\n'), ('f', '\x0c'), ('r', '\r'), ('"', '"'),
    ('\\', '\\')].lookup c

/-- Adds a character to what has been read of a string. -/
def addChar (c : Char) : List Char × List Char → List Char × List Char
  | (read, rest) => (c :: read, rest)

/-- A string behind its opening quote, in which a backslash begins an escape. -/
def basicString? : List Char → Option (List Char × List Char)
  | [] => none
  | '"' :: cs => some ([], cs)
  | '\n' :: _ => none
  | '\\' :: 'u' :: a :: b :: c :: d :: cs => do
    let char ← ofHex? [a, b, c, d]
    (basicString? cs).map (addChar char)
  | '\\' :: 'U' :: a :: b :: c :: d :: e :: f :: g :: h :: cs => do
    let char ← ofHex? [a, b, c, d, e, f, g, h]
    (basicString? cs).map (addChar char)
  | '\\' :: c :: cs => do
    let char ← escaped? c
    (basicString? cs).map (addChar char)
  | c :: cs => (basicString? cs).map (addChar c)

/-- Whether the characters ahead, in a string of several lines, are text, or blanks behind a
backslash in front of the end of the line, or blanks behind that. -/
inductive Fold where
  | text
  | beforeBreak
  | behindBreak
  deriving DecidableEq, Repr

/-- A string of several lines behind its opening quotes, in which a backslash begins an
escape or takes away the end of the line and the blanks behind it. -/
def longString? : Fold → List Char → Option (List Char × List Char)
  | _, [] => none
  | .beforeBreak, '\n' :: cs => longString? .behindBreak cs
  | .beforeBreak, '\r' :: '\n' :: cs => longString? .behindBreak cs
  | .beforeBreak, c :: cs => if isGap c then longString? .beforeBreak cs else none
  | _, '\\' :: 'u' :: a :: b :: c :: d :: cs => do
    let char ← ofHex? [a, b, c, d]
    (longString? .text cs).map (addChar char)
  | _, '\\' :: 'U' :: a :: b :: c :: d :: e :: f :: g :: h :: cs => do
    let char ← ofHex? [a, b, c, d, e, f, g, h]
    (longString? .text cs).map (addChar char)
  | _, '\\' :: c :: cs =>
    match escaped? c with
    | some char => (longString? .text cs).map (addChar char)
    | none => longString? .beforeBreak (c :: cs)
  | _, '"' :: '"' :: '"' :: cs => some ([], cs)
  | .behindBreak, '\r' :: '\n' :: cs => longString? .behindBreak cs
  | fold, c :: cs =>
    if fold = .behindBreak && (isGap c || c = '\n') then longString? .behindBreak cs
    else (longString? .text cs).map (addChar c)

/-- What follows the end of a line, if there is one in front of a text. -/
def skipBreak (cs : List Char) : List Char :=
  (lineBreak? cs).getD cs

/-- A string in single quotes behind the first of them: everything up to the next one on the
same line. -/
def literalString? (cs : List Char) : Option (List Char × List Char) :=
  match cs.dropWhile fun c => c ≠ '\'' && c ≠ '\n' with
  | '\'' :: rest => some (cs.takeWhile fun c => c ≠ '\'' && c ≠ '\n', rest)
  | _ => none

/-- A string of several lines in single quotes behind the first three of them. -/
def longLiteral? : List Char → Option (List Char × List Char)
  | [] => none
  | '\'' :: '\'' :: '\'' :: cs => some ([], cs)
  | c :: cs => (longLiteral? cs).map (addChar c)

/-- A string, in any of the four ways to write one. -/
def string? : List Char → Option (List Char × List Char)
  | '"' :: '"' :: '"' :: cs => longString? .text (skipBreak cs)
  | '\'' :: '\'' :: '\'' :: cs => longLiteral? (skipBreak cs)
  | '"' :: cs => basicString? cs
  | '\'' :: cs => literalString? cs
  | _ => none

/-! ### Numbers -/

/-- The value of a number that begins with the value `n` and goes on with digits in a base,
in front of each of which an underscore may stand. -/
def moreDigits? (base n : Nat) : List Char → Option Nat
  | [] => some n
  | '_' :: c :: cs => (digit? base c).bind fun d => moreDigits? base (base * n + d) cs
  | c :: cs => (digit? base c).bind fun d => moreDigits? base (base * n + d) cs

/-- The value of digits in a base, between which single underscores may stand. -/
def digits? (base : Nat) : List Char → Option Nat
  | [] => none
  | c :: cs => (digit? base c).bind fun d => moreDigits? base d cs

/-- A decimal number, which may not begin with a superfluous zero. -/
def decimal? (cs : List Char) : Option Nat :=
  match cs with
  | '0' :: _ :: _ => none
  | _ => digits? 10 cs

/-- A whole number: in decimal digits, perhaps with a sign, or in another base. -/
def integerOf? : List Char → Option Int
  | '0' :: 'x' :: cs => (digits? 16 cs).map Int.ofNat
  | '0' :: 'o' :: cs => (digits? 8 cs).map Int.ofNat
  | '0' :: 'b' :: cs => (digits? 2 cs).map Int.ofNat
  | '+' :: cs => (decimal? cs).map Int.ofNat
  | '-' :: cs => (decimal? cs).map fun n => -Int.ofNat n
  | cs => (decimal? cs).map Int.ofNat

/-- A whole number of 64 bits. -/
def integer? (cs : List Char) : Option Int :=
  (integerOf? cs).filter fun n => -0x8000000000000000 ≤ n && n < 0x8000000000000000

/-! ### Keys and values -/

/-- A character of a key without quotes. -/
def isKeyPart (c : Char) : Bool :=
  c.isAlphanum || c = '_' || c = '-'

/-- A key, with or without quotes. -/
def key? (cs : List Char) : Option (String × List Char) :=
  match cs with
  | '"' :: rest => (basicString? rest).map fun (key, rest) => (String.ofList key, rest)
  | '\'' :: rest => (literalString? rest).map fun (key, rest) => (String.ofList key, rest)
  | _ =>
    if (cs.takeWhile isKeyPart).isEmpty then none
    else some (String.ofList (cs.takeWhile isKeyPart), cs.dropWhile isKeyPart)

/-- Keys with dots between them, at most `fuel` of them, and the text behind the blanks that
follow. -/
def keyPath? : Nat → List Char → Option (List String × List Char)
  | 0, _ => none
  | fuel + 1, cs => do
    let (key, rest) ← key? (skipGap cs)
    match skipGap rest with
    | '.' :: rest => (keyPath? fuel rest).map fun (path, rest) => (key :: path, rest)
    | rest => some ([key], rest)

/-- A table or an array without contents. -/
def emptyValue? : List Char → Option (List Char)
  | '\x7b' :: cs =>
    match skipGap cs with
    | '\x7d' :: rest => some rest
    | _ => none
  | '[' :: cs =>
    match skipLines cs.length cs with
    | ']' :: rest => some rest
    | _ => none
  | _ => none

/-- A table whose only key has a value without contents. -/
def choice? : List Char → Option (String × List Char)
  | '\x7b' :: cs => do
    let (key, rest) ← key? (skipGap cs)
    match skipGap rest with
    | '=' :: rest => do
      let rest ← emptyValue? (skipGap rest)
      match skipGap rest with
      | '\x7d' :: rest => some (key, rest)
      | _ => none
    | _ => none
  | _ => none

/-- A character of a number or a truth value. -/
def isWordPart (c : Char) : Bool :=
  c.isAlphanum || c = '_' || c = '+' || c = '-'

/-- A value, and the text behind it. -/
def value? (cs : List Char) : Option (Value × List Char) :=
  match string? cs with
  | some (text, rest) => some (.text (String.ofList text), rest)
  | none =>
    match emptyValue? cs with
    | some rest => some (.empty, rest)
    | none =>
      match choice? cs with
      | some (key, rest) => some (.choice key, rest)
      | none =>
        let word := cs.takeWhile isWordPart
        let rest := cs.dropWhile isWordPart
        if word = "true".toList then some (.flag true, rest)
        else if word = "false".toList then some (.flag false, rest)
        else (integer? word).map fun n => (.integer n, rest)

end NodeQuery.Settings
