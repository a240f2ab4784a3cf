/-
Characters and texts.

The classes of characters are written down as ranges of code points. The blank characters are the
twenty-five characters of the Unicode property `White_Space`: blanks separate tokens, surround
fields, and never belong to either. The digits are those of every script, the Unicode general
category `Nd`. Words are compared without regard to the case of their letters.

A line ends with a line feed; a carriage return in front of that is no part of the line. The last
line need not end with a line feed.

* `inRanges`: whether a character lies in one of a list of ranges.
* `isBlank`, `isDecimalDigit`: the two classes.
* `trim`: a text without the blanks at its two ends; `trim?`: the same, with a text of blanks alone
  counted as missing.
* `sameWord`: equality of texts up to the case of ASCII letters.
* `foldCase`: the small form of a letter, for ASCII and for the two characters outside it that
  Unicode counts as case variants of an ASCII letter, the long s and the Kelvin sign.
* `segments`, `joinWith`: the pieces between the occurrences of a character, and texts put
  together.
* `lines`, `joinLines`: the lines of a text, and lines as a text.
-/
namespace NodeQuery.Text

/-! ### Ranges of code points -/

/-- The code points from `first` to `last`, both included. -/
structure CodeRange where
  first : Nat
  last : Nat
  deriving DecidableEq, Repr

/-- Whether `c` lies in the range. -/
def CodeRange.holds (r : CodeRange) (c : Char) : Bool :=
  r.first ≤ c.toNat && c.toNat ≤ r.last

/-- The range of one code point. -/
def CodeRange.single (code : Nat) : CodeRange :=
  ⟨code, code⟩

/-- Whether `c` lies in one of the ranges. -/
def inRanges (ranges : List CodeRange) (c : Char) : Bool :=
  ranges.any (·.holds c)

/-! ### Blank characters -/

/-- The Unicode property `White_Space`. -/
def blankRanges : List CodeRange :=
  [⟨0x09, 0x0D⟩, .single 0x20, .single 0x85, .single 0xA0, .single 0x1680, ⟨0x2000, 0x200A⟩,
    ⟨0x2028, 0x2029⟩, .single 0x202F, .single 0x205F, .single 0x3000]

/-- A character that separates words without standing for anything. -/
def isBlank (c : Char) : Bool :=
  inRanges blankRanges c

/-- A list without the longest run at its end in which `p` holds throughout. -/
def dropWhileEnd {α : Type} (p : α → Bool) (xs : List α) : List α :=
  (xs.reverse.dropWhile p).reverse

/-- The characters of a text without the blanks at its two ends. -/
def trimChars (cs : List Char) : List Char :=
  dropWhileEnd isBlank (cs.dropWhile isBlank)

/-- A text without the blanks at its two ends. -/
def trim (s : String) : String :=
  String.ofList (trimChars s.toList)

/-- A text without the blanks at its two ends, missing when nothing is left. -/
def trim? (s : String) : Option String :=
  let t := trim s
  if t = "" then none else some t

/-! ### Digits -/

/-- The Unicode general category `Nd`. -/
def decimalDigitRanges : List CodeRange :=
  [⟨0x0030, 0x0039⟩, ⟨0x0660, 0x0669⟩, ⟨0x06F0, 0x06F9⟩, ⟨0x07C0, 0x07C9⟩, ⟨0x0966, 0x096F⟩,
    ⟨0x09E6, 0x09EF⟩, ⟨0x0A66, 0x0A6F⟩, ⟨0x0AE6, 0x0AEF⟩, ⟨0x0B66, 0x0B6F⟩, ⟨0x0BE6, 0x0BEF⟩,
    ⟨0x0C66, 0x0C6F⟩, ⟨0x0CE6, 0x0CEF⟩, ⟨0x0D66, 0x0D6F⟩, ⟨0x0DE6, 0x0DEF⟩, ⟨0x0E50, 0x0E59⟩,
    ⟨0x0ED0, 0x0ED9⟩, ⟨0x0F20, 0x0F29⟩, ⟨0x1040, 0x1049⟩, ⟨0x1090, 0x1099⟩, ⟨0x17E0, 0x17E9⟩,
    ⟨0x1810, 0x1819⟩, ⟨0x1946, 0x194F⟩, ⟨0x19D0, 0x19D9⟩, ⟨0x1A80, 0x1A89⟩, ⟨0x1A90, 0x1A99⟩,
    ⟨0x1B50, 0x1B59⟩, ⟨0x1BB0, 0x1BB9⟩, ⟨0x1C40, 0x1C49⟩, ⟨0x1C50, 0x1C59⟩, ⟨0xA620, 0xA629⟩,
    ⟨0xA8D0, 0xA8D9⟩, ⟨0xA900, 0xA909⟩, ⟨0xA9D0, 0xA9D9⟩, ⟨0xA9F0, 0xA9F9⟩, ⟨0xAA50, 0xAA59⟩,
    ⟨0xABF0, 0xABF9⟩, ⟨0xFF10, 0xFF19⟩, ⟨0x104A0, 0x104A9⟩, ⟨0x10D30, 0x10D39⟩,
    ⟨0x10D40, 0x10D49⟩, ⟨0x11066, 0x1106F⟩, ⟨0x110F0, 0x110F9⟩, ⟨0x11136, 0x1113F⟩,
    ⟨0x111D0, 0x111D9⟩, ⟨0x112F0, 0x112F9⟩, ⟨0x11450, 0x11459⟩, ⟨0x114D0, 0x114D9⟩,
    ⟨0x11650, 0x11659⟩, ⟨0x116C0, 0x116C9⟩, ⟨0x116D0, 0x116E3⟩, ⟨0x11730, 0x11739⟩,
    ⟨0x118E0, 0x118E9⟩, ⟨0x11950, 0x11959⟩, ⟨0x11BF0, 0x11BF9⟩, ⟨0x11C50, 0x11C59⟩,
    ⟨0x11D50, 0x11D59⟩, ⟨0x11DA0, 0x11DA9⟩, ⟨0x11F50, 0x11F59⟩, ⟨0x16130, 0x16139⟩,
    ⟨0x16A60, 0x16A69⟩, ⟨0x16AC0, 0x16AC9⟩, ⟨0x16B50, 0x16B59⟩, ⟨0x16D70, 0x16D79⟩,
    ⟨0x1CCF0, 0x1CCF9⟩, ⟨0x1D7CE, 0x1D7FF⟩, ⟨0x1E140, 0x1E149⟩, ⟨0x1E2F0, 0x1E2F9⟩,
    ⟨0x1E4F0, 0x1E4F9⟩, ⟨0x1E5F1, 0x1E5FA⟩, ⟨0x1E950, 0x1E959⟩, ⟨0x1FBF0, 0x1FBF9⟩]

/-- A character that stands for a digit of a decimal number in some script. -/
def isDecimalDigit (c : Char) : Bool :=
  inRanges decimalDigitRanges c

/-! ### Words -/

/-- The small form of an ASCII letter; every other character is its own. -/
def lower (c : Char) : Char :=
  c.toLower

/-- The characters of a text with their ASCII letters made small. -/
def lowerAll (cs : List Char) : List Char :=
  cs.map lower

/-- Equality of texts up to the case of ASCII letters. -/
def sameWord (a b : String) : Bool :=
  lowerAll a.toList = lowerAll b.toList

/-- The small ASCII letter of which Unicode counts the character a case variant, or the
character itself. -/
def foldCase (c : Char) : Char :=
  if c = '\u017f' then 's' else if c = '\u212a' then 'k' else lower c

/-! ### Segments -/

/-- The pieces of a text between the occurrences of `sep`; there is one more of them than
there are separators. -/
def segments (sep : Char) : List Char → List (List Char)
  | [] => [[]]
  | c :: cs =>
    match segments sep cs with
    | [] => [[c]]
    | piece :: rest => if c = sep then [] :: piece :: rest else (c :: piece) :: rest

/-- Texts written one after the other with `sep` between them. -/
def joinWith (sep : String) (texts : List String) : String :=
  sep.intercalate texts

/-! ### Lines -/

/-- A line without the carriage return at its end. -/
def dropReturn (line : List Char) : List Char :=
  if line.getLast? = some '\r' then line.dropLast else line

/-- The lines, given the pieces of a text between its line feeds. Nothing behind the last
line feed is no line. -/
def linesOfPieces : List (List Char) → List (List Char)
  | [] => []
  | [last] => if last.isEmpty then [] else [last]
  | line :: rest => dropReturn line :: linesOfPieces rest

/-- The lines of a text. -/
def lines (cs : List Char) : List (List Char) :=
  linesOfPieces (segments '\n' cs)

/-- Lines as a text, with a line feed between any two. -/
def joinLines (lines : List (List Char)) : List Char :=
  ['\n'].intercalate lines

end NodeQuery.Text
