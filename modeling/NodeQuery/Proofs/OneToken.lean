/-
Texts that are one token.

A value is written as it is just when the lexer reads it as one literal or identifier, from its
first character to its last; with a blank, a comment or a second token in it, and if it is a
reserved word or an error, it is written as a string. The tests by which a value is judged do not
ask the lexer, so they are compared with it: a number must not go on behind what the lexer takes of
it, and a string must be closed by the last character and no other. What is written is always one
token, and so it is written as it is in its turn.

* `Literal.IsToken`: a text that is one token of some kind; `Literal.isToken_iff`: in terms of its
  lexemes.
* `Literal.IsString`, `Literal.IsLiteral`: a text that is one string, and one that is a string, a
  number, a truth value or an identifier.
* `Literal.isQuoted_iff`: the test for strings.
* `Literal.escape_eq_self_iff`: the values that are written as they are.
-/
import NodeQuery.Proofs.Parsing
import NodeQuery.Proofs.Tiling

namespace NodeQuery

/-- A span has all bytes of a source if its text is all of the source. -/
theorem Frames.eq_iff {source : String} {s : Span} {front text rest : List Char}
    (h : Frames source s front text rest) :
    s = ⟨0, source.utf8ByteSize⟩ ↔ text = source.toList := by
  constructor
  · intro hs
    have hstart := h.start_eq
    have hsize := h.utf8ByteSize_eq
    rw [hs] at hstart hsize
    have hfront : front = [] := String.utf8Len_eq_zero.mp hstart.symm
    have hrest : rest = [] := String.utf8Len_eq_zero.mp (Nat.left_eq_add.mp hsize)
    rw [h.source_eq, hfront, hrest, List.nil_append, List.append_nil]
  · intro htext
    have hlength := congrArg List.length h.source_eq
    simp only [List.length_append, htext] at hlength
    have hfront : front = [] := List.length_eq_zero_iff.mp (by omega)
    have hrest : rest = [] := List.length_eq_zero_iff.mp (by omega)
    have hstart := h.start_eq
    have hsize := h.utf8ByteSize_eq
    rw [hfront] at hstart
    rw [hrest] at hsize
    exact congrArg₂ Span.mk hstart hsize.symm

namespace Literal

/-! ### One token -/

/-- The text is one token of the kind: nothing else is read of it, and the token stands on all of
it. -/
def IsToken (v : String) (kind : Token.Kind) : Prop :=
  ∃ t e, tokenize v = [t, e] ∧ t.kind = kind ∧ t.span = ⟨0, v.utf8ByteSize⟩
    ∧ e.kind = .endOfInput

/-- The text is one string. -/
def IsString (v : String) : Prop :=
  ∃ raw, IsToken v (.string raw)

/-- The text is one string, number, truth value or identifier. -/
def IsLiteral (v : String) : Prop :=
  ∃ raw, IsToken v (.string raw) ∨ IsToken v (.number raw) ∨ IsToken v (.boolean raw)
    ∨ IsToken v (.identifier raw)

variable {v raw : String} {kind : Token.Kind}

/-- A token with a value stands on all of the text if its value is the text. -/
theorem span_eq_iff {t : Token} (ht : t ∈ tokenize v) (hraw : t.kind.value? = some raw) :
    t.span = ⟨0, v.utf8ByteSize⟩ ↔ raw = v := by
  obtain ⟨front, text, rest, hframes, -, -, hvalue⟩ := (tiles_tokenize v).exists_frames rfl t ht
  rw [hframes.eq_iff, hvalue raw hraw, ← String.toList_inj, String.toList_ofList]

/-- A text is one token with a value if it has no other lexeme, and is the value itself. -/
theorem isToken_iff (hraw : kind.value? = some raw) :
    IsToken v kind ↔ kinds v.toList = [kind] ∧ raw = v := by
  have hkinds := Parser.map_kind_tokenize v
  constructor
  · rintro ⟨t, e, htokens, rfl, hspan, he⟩
    rw [htokens, List.map_cons, List.map_singleton, he] at hkinds
    have hone : [t.kind] ++ [.endOfInput] = kinds v.toList ++ [.endOfInput] := hkinds
    have hmem : t ∈ tokenize v := by simp [htokens]
    exact ⟨(List.append_cancel_right hone).symm, (span_eq_iff hmem hraw).mp hspan⟩
  · rintro ⟨hone, rfl⟩
    rw [hone] at hkinds
    obtain ⟨t, rest, htokens, rfl, hrest⟩ := List.map_eq_cons_iff.mp hkinds
    obtain ⟨e, rfl, he⟩ := List.map_eq_singleton_iff.mp hrest
    have hmem : t ∈ tokenize raw := by simp [htokens]
    exact ⟨t, e, htokens, rfl, (span_eq_iff hmem hraw).mpr rfl, he⟩

/-- The kinds of tokens that have a value are those of literals and identifiers. -/
theorem isLiteral_iff : IsLiteral v ↔ ∃ kind : Token.Kind, kind.value? = some v
    ∧ kinds v.toList = [kind] := by
  constructor
  · rintro ⟨raw, h | h | h | h⟩
    all_goals
      obtain ⟨hkinds, rfl⟩ := (isToken_iff rfl).mp h
      exact ⟨_, rfl, hkinds⟩
  · rintro ⟨kind, hvalue, hkinds⟩
    have htoken : IsToken v kind := (isToken_iff hvalue).mpr ⟨hkinds, rfl⟩
    cases kind with
    | string raw => exact ⟨raw, .inl htoken⟩
    | number raw => exact ⟨raw, .inr (.inl htoken)⟩
    | boolean raw => exact ⟨raw, .inr (.inr (.inl htoken))⟩
    | identifier name => exact ⟨name, .inr (.inr (.inr htoken))⟩
    | _ => cases hvalue

/-! ### The tests of values -/

/-- The test for strings finds those that the lexer reads as one string. -/
theorem isQuoted_iff : isQuoted v = true ↔ IsString v := by
  constructor
  · intro h
    refine ⟨v, (isToken_iff rfl).mpr ⟨?_, rfl⟩⟩
    simpa using (lexes_quoted h).kinds_eq
  · rintro ⟨raw, h⟩
    obtain ⟨hkinds, rfl⟩ := (isToken_iff rfl).mp h
    have hmem : .string raw ∈ kinds raw.toList := by simp [hkinds]
    exact isGenuine_of_mem_kinds (.string raw) hmem

/-- What is written for a value is one literal or identifier. -/
theorem isLiteral_escape (v : String) : IsLiteral (escape v) := by
  obtain ⟨kind, hvalue, hlex⟩ := lexes_escape v
  exact isLiteral_iff.mpr ⟨kind, hvalue, hlex.kinds_eq⟩

/-- What is one literal or identifier passes the tests. -/
theorem escape_of_isLiteral (h : IsLiteral v) : escape v = v := by
  obtain ⟨kind, hvalue, hkinds⟩ := isLiteral_iff.mp h
  have hmem : kind ∈ kinds v.toList := by simp [hkinds]
  exact escape_of_isGenuine (isGenuine_of_mem_kinds kind hmem) hvalue

/-- A value is written as it is just when it is one string, number, truth value or identifier for
the lexer; what is written for a value always is, and is written as it is. -/
theorem escape_eq_self_iff (v : String) :
    (escape v = v ↔ IsLiteral v) ∧ IsLiteral (escape v) ∧ escape (escape v) = escape v := by
  have hliteral := isLiteral_escape v
  refine ⟨⟨fun h => ?_, escape_of_isLiteral⟩, hliteral, escape_escape v⟩
  rwa [h] at hliteral

end Literal

end NodeQuery
