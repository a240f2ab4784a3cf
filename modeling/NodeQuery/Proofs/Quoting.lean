/-
Strings as a code for texts.

Any text can be written between double quotes: the six characters that could end the string, or
that can not stand on a line, are escaped by a backslash. The lexer reads what is written as one
string, up to the quote that was written last, so no text runs into what follows. The escapes
stay when the quotes are taken off again. Decoding them gives the text that was written, and
different texts are written differently; without decoding, a text comes back as it was just when
none of the six characters is in it.

* `Literal.unescape?`: the characters for which the text of a string stands.
* `Literal.unescape?_flatMap_quoteChar`: decoding what is written between the quotes.
* `Literal.quoteChar_eq_iff`: the six characters.
* `Literal.quote_isLossless`: what is written is one string, and nothing of the text is lost.
-/
import NodeQuery.Proofs.OneToken
import NodeQuery.Proofs.Selecting
import NodeQuery.Settings.Value

namespace NodeQuery.Literal

/-! ### Decoding -/

/-- The character for which a character behind a backslash stands. -/
def escaped? (c : Char) : Option Char :=
  [('"', '"'), ('\'', '\''), ('\\', '\\'), ('n', '\n'), ('t', '\t'), ('r', '\r'), ('b', '\x08'),
    ('f', '\x0c')].lookup c

/-- The characters for which the text of a string stands, if each of its escapes stands for a
character: one that is named by a letter, or by four hexadecimal digits. -/
def unescape? : List Char → Option (List Char)
  | [] => some []
  | '\\' :: 'u' :: a :: b :: c :: d :: cs => do
    let char ← Settings.ofHex? [a, b, c, d]
    (unescape? cs).map (char :: ·)
  | '\\' :: c :: cs => do
    let char ← escaped? c
    (unescape? cs).map (char :: ·)
  | ['\\'] => none
  | c :: cs => (unescape? cs).map (c :: ·)

theorem unescape?_cons {c : Char} (hc : c ≠ '\\') (cs : List Char) :
    unescape? (c :: cs) = (unescape? cs).map (c :: ·) := by
  rw [unescape?]
  all_goals
    intros
    contradiction

/-- A character that is written is decoded, and the text goes on behind it. -/
theorem unescape?_quoteChar (c : Char) (cs : List Char) :
    unescape? (quoteChar c ++ cs) = (unescape? cs).map (c :: ·) := by
  unfold quoteChar
  split
  iterate 6
    rfl
  rename_i hslash _ _ _ _ _
  exact unescape?_cons hslash cs

theorem unescape?_flatMap_quoteChar (cs : List Char) :
    unescape? (cs.flatMap quoteChar) = some cs := by
  induction cs with
  | nil => rfl
  | cons c cs ih => rw [List.flatMap_cons, unescape?_quoteChar, ih, Option.map_some]

/-! ### The characters that are escaped -/

theorem quoteChar_eq_iff {c : Char} :
    quoteChar c = [c] ↔ c ∉ ['\\', '"', '\'', '\n', '\t', '\r'] := by
  constructor
  · intro h hmem
    simp only [List.mem_cons, List.not_mem_nil, or_false] at hmem
    rcases hmem with rfl | rfl | rfl | rfl | rfl | rfl
    all_goals
      exact absurd h (by decide)
  · intro h
    simp only [List.mem_cons, List.not_mem_nil, or_false, not_or] at h
    unfold quoteChar
    split
    iterate 6
      simp at h
    rfl

theorem one_le_length_quoteChar (c : Char) : 1 ≤ (quoteChar c).length := by
  unfold quoteChar
  split <;> simp

theorem quoteChar_eq_of_length {c : Char} (h : (quoteChar c).length = 1) : quoteChar c = [c] := by
  unfold quoteChar at h ⊢
  split at h
  iterate 6
    cases h
  rfl

theorem length_le_flatMap_quoteChar (cs : List Char) :
    cs.length ≤ (cs.flatMap quoteChar).length := by
  induction cs with
  | nil => exact le_refl 0
  | cons c cs ih =>
    have hc := one_le_length_quoteChar c
    rw [List.flatMap_cons, List.length_append, List.length_cons]
    omega

/-- What stands between quotes is the text itself just when none of its characters is escaped. -/
theorem flatMap_quoteChar_eq_iff {cs : List Char} :
    cs.flatMap quoteChar = cs ↔ ∀ c ∈ cs, quoteChar c = [c] := by
  constructor
  · intro h
    -- an escaped character would make the text longer
    have hlength := congrArg List.length h
    clear h
    induction cs with
    | nil => simp
    | cons c cs ih =>
      have hc := one_le_length_quoteChar c
      have hcs := length_le_flatMap_quoteChar cs
      rw [List.flatMap_cons, List.length_append, List.length_cons] at hlength
      rw [List.forall_mem_cons]
      exact ⟨quoteChar_eq_of_length (by omega), ih (by omega)⟩
  · intro h
    rw [List.flatMap_congr h, List.flatMap_singleton']

/-! ### What is written is one string -/

/-- What is written for a text is one string for the lexer, from the first quote to the last, and
what stands between the quotes is decoded to the text, so that different texts are written
differently. What stands there is the text itself just when it has none of the six characters that
are escaped. -/
theorem quote_isLossless :
    Function.Injective quote
      ∧ ∀ v, IsToken (quote v) (.string (quote v))
        ∧ (unescape? (unquote (quote v)).toList).map String.ofList = some v
        ∧ (unquote (quote v) = v
          ↔ ∀ c ∈ v.toList, c ∉ ['\\', '"', '\'', '\n', '\t', '\r']) := by
  have hdecode : ∀ v, (unescape? (unquote (quote v)).toList).map String.ofList = some v := by
    intro v
    rw [unquote_quote, String.toList_ofList, unescape?_flatMap_quoteChar, Option.map_some,
      String.ofList_toList]
  refine ⟨fun v w h => ?_, fun v => ⟨?_, hdecode v, ?_⟩⟩
  · have hv := hdecode v
    rw [h, hdecode w] at hv
    exact (Option.some.inj hv).symm
  · have hlexes := lexes_quoted (isQuotedChars_quote v)
    rw [String.ofList_toList] at hlexes
    exact (isToken_iff rfl).mpr ⟨hlexes.kinds_eq, rfl⟩
  · rw [unquote_quote, ← String.toList_inj, String.toList_ofList, flatMap_quoteChar_eq_iff]
    exact forall₂_congr fun c _ => quoteChar_eq_iff

end NodeQuery.Literal
