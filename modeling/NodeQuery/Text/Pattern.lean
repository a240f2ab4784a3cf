/-
Patterns at the front of a text, and the places where they occur.

A pattern says what is left of a text behind an occurrence at its front. Of the occurrences
in a text the first counts, and those that begin inside it do not.

* `word`, `blanks`: a word in any case of its letters, and a run of blanks.
* `firstMatch?`: the text in front of the first occurrence, and the text behind it.
* `splitAround`: the texts between the occurrences.
* `squeeze`: a text in which runs of blanks are replaced by single spaces.
-/
import NodeQuery.Text

namespace NodeQuery.Text

/-- What is left of a text behind an occurrence at its front, if there is one. -/
abbrev Pattern := List Char → Option (List Char)

/-! ### Patterns -/

/-- A word, given in small letters, in any case of its letters. -/
def word : List Char → Pattern
  | [], cs => some cs
  | _ :: _, [] => none
  | w :: ws, c :: cs => if foldCase c = w then word ws cs else none

/-- At least one character of a class, and all that follow it. -/
def run (p : Char → Bool) : Pattern
  | [] => none
  | c :: cs => if p c then some (cs.dropWhile p) else none

/-- At least one blank, and all that follow it. -/
def blanks : Pattern :=
  run isBlank

/-- One character of a class. -/
def oneOf (p : Char → Bool) : Pattern
  | [] => none
  | c :: cs => if p c then some cs else none

/-- Words with blanks between them. -/
def words : List (List Char) → Pattern
  | [], cs => some cs
  | [w], cs => word w cs
  | w :: ws, cs => (word w cs).bind fun rest => (blanks rest).bind (words ws)

/-! ### Occurrences -/

/-- The text in front of the first occurrence of a pattern, and the text behind it. -/
def firstMatch? (p : Pattern) : List Char → Option (List Char × List Char)
  | [] => (p []).map fun rest => ([], rest)
  | c :: cs =>
    match p (c :: cs) with
    | some rest => some ([], rest)
    | none => (firstMatch? p cs).map fun (before, after) => (c :: before, after)

/-- A character in front of the first of several texts. -/
def consFirst (c : Char) : List (List Char) → List (List Char)
  | [] => [[c]]
  | text :: texts => (c :: text) :: texts

/-- The texts between the occurrences of a pattern, where the first `skip` characters belong
to an occurrence. -/
def splitAfter (p : Pattern) : Nat → List Char → List (List Char)
  | _, [] => [[]]
  | skip + 1, _ :: cs => splitAfter p skip cs
  | 0, c :: cs =>
    match p (c :: cs) with
    | some rest => [] :: splitAfter p (cs.length - rest.length) cs
    | none => consFirst c (splitAfter p 0 cs)

/-- The texts between the occurrences of a pattern. -/
def splitAround (p : Pattern) (cs : List Char) : List (List Char) :=
  splitAfter p 0 cs

/-! ### Runs of blanks -/

/-- A text in which each run of blanks that begins with a character of a class is replaced by
one space; `inside` tells whether the text goes on in such a run. -/
def squeeze (begins : Char → Bool) (inside : Bool) : List Char → List Char
  | [] => []
  | c :: cs =>
    if inside && isBlank c then squeeze begins true cs
    else if begins c then ' ' :: squeeze begins true cs
    else c :: squeeze begins false cs

/-- A text in which each run of blanks is replaced by one space. -/
def squeezeBlanks (cs : List Char) : List Char :=
  squeeze isBlank false cs

/-- A text in which each line feed is replaced by one space, together with the blanks that
follow it. -/
def squeezeBreaks (cs : List Char) : List Char :=
  squeeze (· = '\n') false cs

end NodeQuery.Text
