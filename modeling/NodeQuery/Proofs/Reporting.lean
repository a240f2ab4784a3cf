/-
Where errors of reading stand.

If a text is not read, the reason is either that some of its tokens are errors, and then each of
them is reported, or that the parser stops at a token, and then this one is. So an error bears the
place of a token, and quotes its text, which is nothing just at the end of the input.

* `ParseError.IsPlaced`: an error stands at its place in a text.
* `Token.isPlaced`: what is reported of a token does.
* `Parser.run_eq_error`: what is reported of tokens.
* `errors_isPlaced`: what is reported of a text.
-/
import NodeQuery.Proofs.Parsing
import NodeQuery.Proofs.Parsing.Progress
import NodeQuery.Proofs.Tiling

namespace NodeQuery

/-! ### Errors and tokens -/

/-- An error bears a place in a text, with the line and the column of this place, and quotes what
stands there; it quotes nothing if the place is the end of the text, and only then. -/
structure ParseError.IsPlaced (e : ParseError) (source : String) : Prop where
  offset_le : e.position.offset ≤ source.utf8ByteSize
  isValid : String.Pos.Raw.IsValid source ⟨e.position.offset⟩
  line_eq : e.position.line = 1 + (Span.slice ⟨0, e.position.offset⟩ source).toList.count '\n'
  column_eq : e.position.column = 1
    + ((Span.slice ⟨0, e.position.offset⟩ source).toList.rtakeWhile fun c => c ≠ '\n').length
  token_isPrefix :
    e.token.toList <+: (Span.slice ⟨e.position.offset, source.utf8ByteSize⟩ source).toList
  token_eq_empty_iff : e.token = "" ↔ e.position.offset = source.utf8ByteSize

/-- Whether a token of this kind is an error. -/
def Token.Kind.isError : Token.Kind → Bool
  | error _ => true
  | _ => false

/-- What is reported of a token that is an error. -/
def Token.lexicalError (t : Token) : ParseError :=
  ⟨.lexical, "Lexer error: " ++ t.kind.spelling, t.start, t.text⟩

/-- An error at the place of a token, with its text, stands in the text of the tokens. -/
theorem Token.isPlaced {source : String} {t : Token} (ht : t ∈ tokenize source)
    (kind : ParseError.Kind) (message : String) :
    (ParseError.mk kind message t.start t.text).IsPlaced source := by
  have htiles := tiles_tokenize source
  obtain ⟨front, text, rest, hframes, hstart, htext, -⟩ := htiles.exists_frames rfl t ht
  have hfront : (Span.slice ⟨0, t.start.offset⟩ source).toList = front := hframes.slice_front
  have hsize := hframes.utf8ByteSize_eq
  rw [hframes.stop_eq, ← hframes.start_eq] at hsize
  refine ⟨?_, hframes.isValid_start, ?_, ?_, ?_, ?_⟩
  · show t.span.start ≤ source.utf8ByteSize
    omega
  · rw [hfront, hstart, Position.behind_eq]
  · rw [hfront, hstart, Position.behind_eq]
  · show t.text.toList <+: (Span.slice ⟨t.span.start, source.utf8ByteSize⟩ source).toList
    rw [hframes.slice_rest, htext, String.toList_ofList]
    exact List.prefix_append _ _
  · show t.text = "" ↔ t.span.start = source.utf8ByteSize
    have hempty : t.text = "" ↔ String.utf8Len text = 0 := by
      rw [htext, String.utf8Len_eq_zero, ← String.toList_inj, String.toList_ofList]
      rfl
    rw [hempty]
    refine ⟨fun hzero => ?_, fun hend => by omega⟩
    -- only the end of the input has no characters
    obtain ⟨ts, e, hts, -, hspan, hnonempty⟩ := htiles.exists_eq_concat
    rw [hts, List.mem_append, List.mem_singleton] at ht
    obtain ht | rfl := ht
    · have hlt := (hnonempty t ht).2
      rw [hframes.stop_eq, ← hframes.start_eq] at hlt
      omega
    · rw [hspan, List.nil_append, String.utf8Len_toList]

/-- Tokens that are errors stand one behind the other. -/
theorem pairwise_errors (source : String) :
    ((tokenize source).filter fun t => t.kind.isError).Pairwise
      fun s t => s.start.offset < t.start.offset := by
  have htiles := tiles_tokenize source
  obtain ⟨ts, e, hts, he, -, hnonempty⟩ := htiles.exists_eq_concat
  rw [List.pairwise_filter]
  refine htiles.pairwise.imp_of_mem fun {s t} hs _ hle herror _ => ?_
  rw [hts, List.mem_append, List.mem_singleton] at hs
  obtain hs | rfl := hs
  · exact Nat.lt_of_lt_of_le (hnonempty s hs).2 hle
  · rw [he] at herror
    cases herror

namespace Parser

/-! ### What is reported -/

theorem lexicalErrors_eq (tokens : List Token) :
    lexicalErrors tokens = (tokens.filter fun t => t.kind.isError).map Token.lexicalError := by
  rw [← List.filterMap_eq_map, List.filterMap_filter]
  refine List.filterMap_congr fun t _ => ?_
  obtain ⟨kind, start, stop, text⟩ := t
  cases kind <;> rfl

theorem Failure.kind_ne_lexical (f : Failure) : f.kind ≠ .lexical := by
  obtain ⟨cause, rest⟩ := f
  cases cause with
  | missing what => cases rest <;> simp [kind]
  | _ => simp [kind]

/-- Either all errors among the tokens are reported, or a token, if there are none. -/
theorem run_eq_error {α : Type} {whole : Cursor → Except Failure α} {tokens : List Token}
    {es : List ParseError} (h : run whole tokens = .error es) :
    (es = (tokens.filter fun t => t.kind.isError).map Token.lexicalError ∧ es ≠ [])
      ∨ (∀ t ∈ tokens, t.kind.isError = false)
        ∧ ∃ f, whole ⟨body tokens, 0⟩ = .error f ∧ es = [f.toError (final tokens)] := by
  rw [run] at h
  split at h
  · rename_i hnil
    rw [lexicalErrors_eq, List.map_eq_nil_iff, List.filter_eq_nil_iff] at hnil
    refine .inr ⟨fun t ht => by simpa using hnil t ht, ?_⟩
    rcases hwhole : whole ⟨body tokens, 0⟩ with f | a
    · rw [hwhole] at h
      cases h
      exact ⟨f, rfl, rfl⟩
    · rw [hwhole] at h
      cases h
  · rename_i errors hcons
    cases h
    exact .inl ⟨lexicalErrors_eq tokens, hcons⟩

/-- The token to blame for a failure is one of the tokens of the text. -/
theorem Failure.exists_toError_eq {source : String} {f : Failure}
    (h : f.rest <:+ body (tokenize source)) :
    ∃ t ∈ tokenize source, f.toError (final (tokenize source))
      = ⟨f.kind, f.message (final (tokenize source)), t.start, t.text⟩ := by
  obtain ⟨cause, rest⟩ := f
  cases rest with
  | cons t rest =>
    have hmem : t ∈ tokenize source :=
      (List.takeWhile_prefix _).subset (h.subset (List.mem_cons_self ..))
    exact ⟨t, hmem, rfl⟩
  | nil =>
    -- all tokens have been taken, so the end of the input is to blame
    have htiles := tiles_tokenize source
    obtain ⟨ts, e, hts, he, hspan, hnonempty⟩ := htiles.exists_eq_concat
    have hfind : ((tokenize source).find? fun t => t.kind = .endOfInput).isSome = true := by
      rw [List.find?_isSome]
      exact ⟨e, by simp [hts], by simp [he]⟩
    obtain ⟨t, ht⟩ := Option.isSome_iff_exists.mp hfind
    have hfinal : final (tokenize source) = t := by rw [final, ht, Option.getD_some]
    have hmem := List.mem_of_find?_eq_some ht
    have hkind : t.kind = .endOfInput := by simpa using List.find?_some ht
    have hlast : t = e := by
      rw [hts, List.mem_append, List.mem_singleton] at hmem
      exact hmem.resolve_left fun hmem => (hnonempty t hmem).1 hkind
    have htext : t.text = "" := by
      refine (Token.isPlaced hmem .grammar "").token_eq_empty_iff.mpr ?_
      show t.span.start = source.utf8ByteSize
      rw [hlast, hspan, List.nil_append, String.utf8Len_toList]
    refine ⟨t, hmem, ?_⟩
    rw [toError, culprit, hfinal, htext]
    rfl

end Parser

/-! ### The errors of a text -/

/-- If a text is not read, as a query, as a condition or as a nested query, there are errors. They
are those of its tokens that are errors, if there are any, from left to right, and else a single
one that is not lexical. All of them stand at their places in the text. -/
theorem errors_isPlaced {source : String} {es : List ParseError}
    (h : parse source = .error es ∨ parseCondition source = .error es
      ∨ parseNested source = .error es) :
    es ≠ []
      ∧ (es = ((tokenize source).filter fun t => t.kind.isError).map Token.lexicalError
          ∧ (∀ e ∈ es, e.kind = .lexical)
          ∧ es.Pairwise (fun e e' => e.position.offset < e'.position.offset)
        ∨ (∀ t ∈ tokenize source, t.kind.isError = false)
          ∧ ∃ e, es = [e] ∧ e.kind ≠ .lexical)
      ∧ ∀ e ∈ es, e.IsPlaced source := by
  -- whatever is read, errors among the tokens come first, and a failure is blamed on a token
  have hcases : (es = ((tokenize source).filter fun t => t.kind.isError).map Token.lexicalError
        ∧ es ≠ [])
      ∨ (∀ t ∈ tokenize source, t.kind.isError = false)
        ∧ ∃ f : Parser.Failure, f.rest <:+ Parser.body (tokenize source)
          ∧ es = [f.toError (Parser.final (tokenize source))] := by
    rcases h with h | h | h
    · exact (Parser.run_eq_error h).imp_right fun ⟨herr, f, hf, hes⟩ =>
        ⟨herr, f, Parser.suffix_of_wholeQuery hf, hes⟩
    · exact (Parser.run_eq_error h).imp_right fun ⟨herr, f, hf, hes⟩ =>
        ⟨herr, f, Parser.suffix_of_wholeCondition hf, hes⟩
    · exact (Parser.run_eq_error h).imp_right fun ⟨herr, f, hf, hes⟩ =>
        ⟨herr, f, Parser.suffix_of_wholeNested hf, hes⟩
  obtain ⟨rfl, hne⟩ | ⟨herr, f, hf, rfl⟩ := hcases
  · refine ⟨hne, .inl ⟨rfl, ?_, ?_⟩, ?_⟩
    · exact List.forall_mem_map.mpr fun t _ => rfl
    · exact List.pairwise_map.mpr (pairwise_errors source)
    · exact List.forall_mem_map.mpr fun t ht => Token.isPlaced (List.mem_of_mem_filter ht) _ _
  · refine ⟨List.cons_ne_nil _ _, .inr ⟨herr, _, rfl, f.kind_ne_lexical⟩, ?_⟩
    obtain ⟨t, ht, heq⟩ := Parser.Failure.exists_toError_eq hf
    rw [List.forall_mem_singleton, heq]
    exact Token.isPlaced ht _ _

/-- An error behind characters of two bytes, on the second line. -/
theorem errors_isPlaced_second_line :
    let source := "a where /* é */\n  'é' ;"
    let e : ParseError :=
      ⟨.grammar, "Expected condition, found string literal", ⟨19, 2, 3⟩, "'é'"⟩
    parse source = .error [e] ∧ e.IsPlaced source := by
  intro source e
  have h : parse source = .error [e] :=
    Except.failure?_eq_some.mp (by decide +kernel)
  exact ⟨h, (errors_isPlaced (.inl h)).2.2 e (List.mem_singleton_self e)⟩

end NodeQuery
