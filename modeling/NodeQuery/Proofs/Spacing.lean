/-
What stands between tokens does not matter.

The tokens of a text without errors may be written down again with any blanks and comments between
them. There are to be some between any two tokens, though nothing has to be in front of the first
token or behind the last one, and a last comment need not be closed. What is written so has the
same tokens in other places, and so it is read in the same way.

* `Spread`: the texts in which given texts stand one behind the other, with trivia between them.
* `lexemes_spread`: the lexemes of such a text.
* `Parser.unplaced_parseTokens`: tokens that differ at most in their places.
* `parse_spread`: texts that differ in their trivia only are read in the same way.
-/
import NodeQuery.Proofs.Parsing.InStep
import NodeQuery.Proofs.Relexing
import NodeQuery.Proofs.Reporting

namespace NodeQuery

/-! ### Trivia in front of a text -/

namespace Trivia

theorem extent_line_append {text : List Char} (h : '\n' ∉ text) (cs : List Char) :
    extent .lineComment (text ++ '\n' :: cs) = text.length + (extent .code cs + 1) := by
  induction text with
  | nil => simp [extent]
  | cons c text ih =>
    rw [List.mem_cons, not_or] at h
    rw [List.cons_append, extent_line_cons (Ne.symm h.1), ih h.2, List.length_cons]
    omega

theorem extent_block_append {text : List Char} (h : ¬['*', '/'] <:+: text) (cs : List Char) :
    extent .blockComment (text ++ '*' :: '/' :: cs) = text.length + (extent .code cs + 2) := by
  induction text with
  | nil => simp [extent]
  | cons c text ih =>
    have htext : ¬['*', '/'] <:+: text := fun hinfix => h (List.infix_cons hinfix)
    rw [List.cons_append, extent_block_cons, ih htext, List.length_cons]
    · omega
    -- the comment is not closed by `c` and the character behind it
    rintro rfl hhead
    cases text with
    | nil => simp at hhead
    | cons d text =>
      obtain rfl : d = '/' := by simpa using hhead
      exact h ⟨[], text, rfl⟩

/-- Trivia is passed over, with the trivia behind it if its comments are closed. -/
theorem extent_append_of_isTrivia {final : Prop} {gap rest : List Char}
    (h : IsTrivia final gap) (hrest : final → rest = []) :
    extent .code (gap ++ rest) = gap.length + extent .code rest := by
  induction h with
  | nil => simp
  | @blank c cs hc h ih =>
    have hslash : c ≠ '/' := by
      rintro rfl
      exact absurd hc (by decide)
    rw [List.cons_append, extent_code_cons fun heq => absurd heq hslash, if_pos hc, ih,
      List.length_cons]
    omega
  | @line text cs htext h ih =>
    have heq : '/' :: '/' :: (text ++ '\n' :: cs) ++ rest
        = '/' :: '/' :: (text ++ '\n' :: (cs ++ rest)) := by simp
    rw [heq, extent, extent_line_append htext, ih]
    simp
    omega
  | @block text cs htext h ih =>
    have heq : '/' :: '*' :: (text ++ '*' :: '/' :: cs) ++ rest
        = '/' :: '*' :: (text ++ '*' :: '/' :: (cs ++ rest)) := by simp
    rw [heq, extent, extent_block_append htext, ih]
    simp
    omega
  | @openLine text hfinal htext =>
    rw [hrest hfinal, List.append_nil, extent]
    obtain ⟨text, rest, rfl, -⟩ | ⟨-, hextent⟩ := extent_line text
    · simp at htext
    · simp [hextent, extent]
  | @openBlock text hfinal htext =>
    rw [hrest hfinal, List.append_nil, extent]
    obtain ⟨text, rest, rfl, -⟩ | ⟨-, hextent⟩ := extent_block text
    · exact absurd ⟨text, rest, by simp⟩ htext
    · simp [hextent, extent]

end Trivia

/-- Trivia begins with a blank or a slash. -/
theorem IsTrivia.head {final : Prop} {c : Char} {cs : List Char} (h : IsTrivia final (c :: cs)) :
    Text.isBlank c = true ∨ c = '/' := by
  cases h with
  | blank hc h => exact .inl hc
  | _ => exact .inr rfl

/-- Trivia does not go on with a word or a number in front of it. -/
theorem IsTrivia.apart {final : Prop} {gap rest : List Char} (h : IsTrivia final gap)
    (hne : gap ≠ []) : Apart (gap ++ rest) := by
  obtain ⟨c, cs, rfl⟩ := List.exists_cons_of_ne_nil hne
  intro d hd
  obtain rfl : c = d := by simpa using hd
  rcases h.head with hblank | rfl
  · refine ⟨?_, ?_, ?_, ?_⟩
    · by_contra hpart
      rw [Lexeme.isBlank_of_isWordPart (by simpa using hpart)] at hblank
      cases hblank
    all_goals
      rintro rfl
      exact absurd hblank (by decide)
  · decide

/-! ### The lexemes of a text -/

/-- The kind and the characters of the lexeme that a piece is, if it is one. -/
def Piece.lexeme? : Piece → Option (Token.Kind × List Char)
  | trivia _ => none
  | lexeme kind text => some (kind, text)

/-- The lexemes of a text, from left to right. -/
def lexemes (cs : List Char) : List (Token.Kind × List Char) :=
  (pieces cs).filterMap Piece.lexeme?

theorem lexemes_drop_extent (cs : List Char) :
    lexemes (cs.drop (Trivia.extent .code cs)) = lexemes cs := by
  cases cs with
  | nil => rfl
  | cons c cs =>
    cases h : Trivia.extent .code (c :: cs) with
    | zero => rfl
    | succ n =>
      rw [List.drop_succ_cons, lexemes, lexemes, pieces_of_trivia h]
      rfl

theorem lexemes_of_isTrivia {final : Prop} {gap : List Char} (h : IsTrivia final gap) :
    lexemes gap = [] := by
  have hextent := @Trivia.extent_append_of_isTrivia final gap [] h fun _ => rfl
  rw [← lexemes_drop_extent, ← List.append_nil gap, hextent, List.append_nil]
  simp [Trivia.extent, lexemes, pieces]

theorem lexemes_append_of_isTrivia {gap : List Char} (h : IsTrivia False gap)
    (rest : List Char) : lexemes (gap ++ rest) = lexemes rest := by
  rw [← lexemes_drop_extent, Trivia.extent_append_of_isTrivia h False.elim, ← List.drop_drop,
    List.drop_left, lexemes_drop_extent]

/-- A text that is one lexeme, and no error, in front of a text apart from it. -/
theorem lexemes_append_of_alone {kind : Token.Kind} {text rest : List Char}
    (h : pieces text = [.lexeme kind text]) (herr : ∀ message, kind ≠ .error message)
    (hrest : Apart rest) : lexemes (text ++ rest) = (kind, text) :: lexemes rest := by
  cases text with
  | nil =>
    rw [pieces] at h
    cases h
  | cons c cs =>
    have hext : Trivia.extent .code (c :: cs) = 0 := by
      by_contra hne
      obtain ⟨n, hn⟩ := Nat.exists_eq_succ_of_ne_zero hne
      rw [pieces_of_trivia hn] at h
      cases (List.cons.inj h).1
    rw [pieces_of_lexeme hext] at h
    obtain ⟨hkind, htake⟩ := Piece.lexeme.inj (List.cons.inj h).1
    have hlen : (Lexeme.read c cs).2 = cs.length := by
      have := congrArg List.length (List.cons.inj htake).2
      rw [List.length_take_of_le (Lexeme.read_le c cs)] at this
      exact this
    -- a slash is an error by itself, and so it can not become the beginning of a comment
    have hslash : c ≠ '/' := by
      rintro rfl
      exact herr _ hkind.symm
    have hext' : Trivia.extent .code (c :: (cs ++ rest)) = 0 := by
      rw [Trivia.extent_code_cons fun heq => absurd heq hslash] at hext ⊢
      split_ifs at hext ⊢
      rfl
    have hread := Lexeme.read_append hrest (show ∀ message, (Lexeme.read c cs).1 ≠ _ by
      rwa [hkind])
    rw [List.cons_append, lexemes, pieces_of_lexeme hext', hread, hkind, hlen, List.drop_left,
      List.take_left]
    rfl

/-- The lexemes of a text are lexemes by themselves. -/
theorem pieces_of_mem_lexemes {cs : List Char} :
    ∀ l ∈ lexemes cs, pieces l.2 = [.lexeme l.1 l.2] := by
  rintro ⟨kind, text⟩ hl
  obtain ⟨p, hp, heq⟩ := List.mem_filterMap.mp hl
  cases p with
  | trivia gap => cases heq
  | lexeme k w =>
    cases heq
    obtain ⟨ps, qs, hsplit⟩ := List.append_of_mem hp
    have hfront := @pieces_front _ [] qs kind text (pieces_behind hsplit)
    simpa [textOf, Piece.text] using hfront

/-! ### Texts with trivia between them -/

/-- `Spread first ts cs`: the texts `ts` stand in `cs` one behind the other, with trivia in front
of each of them and behind the last. There is some trivia in front of each, but it may be missing
in front of the first one if this stands `first` of all. -/
inductive Spread : Prop → List (List Char) → List Char → Prop where
  | done {first : Prop} {gap : List Char} (h : IsTrivia True gap) : Spread first [] gap
  | text {first : Prop} {gap text rest : List Char} {ts : List (List Char)}
      (h : IsTrivia False gap) (hne : gap ≠ [] ∨ first) (hs : Spread False ts rest) :
      Spread first (text :: ts) (gap ++ (text ++ rest))

theorem Spread.apart {ts : List (List Char)} {cs : List Char} (h : Spread False ts cs) :
    Apart cs := by
  cases h with
  | done h =>
    by_cases hne : cs = []
    · simp [Apart, hne]
    · have happend := @IsTrivia.apart _ cs [] h hne
      rwa [List.append_nil] at happend
  | text h hne hs => exact h.apart (hne.resolve_right id)

/-- Lexemes that are spread are those of the text. -/
theorem lexemes_spread {first : Prop} {ls : List (Token.Kind × List Char)} {cs : List Char}
    (h : Spread first (ls.map Prod.snd) cs)
    (halone : ∀ l ∈ ls, pieces l.2 = [.lexeme l.1 l.2])
    (herr : ∀ l ∈ ls, ∀ message, l.1 ≠ .error message) : lexemes cs = ls := by
  induction ls generalizing first cs with
  | nil =>
    cases h with
    | done h => exact lexemes_of_isTrivia h
  | cons l ls ih =>
    cases h with
    | text h hne hs =>
      obtain ⟨hl, hls⟩ := List.forall_mem_cons.mp halone
      obtain ⟨hlerr, hlserr⟩ := List.forall_mem_cons.mp herr
      rw [lexemes_append_of_isTrivia h, lexemes_append_of_alone hl hlerr hs.apart,
        ih hs hls hlserr]

/-! ### Tokens that differ in their places -/

/-- What is seen of a token apart from its place. -/
def Token.face (t : Token) : Token.Kind × String :=
  (t.kind, t.text)

/-- The error without its place. -/
def ParseError.unplaced (e : ParseError) : ParseError :=
  { e with position := {} }

/-- The result without the places of queries and errors. -/
def unplaced (r : Except (List ParseError) Query) : Except (List ParseError) Query :=
  (r.map Query.eraseSpans).mapError (List.map ParseError.unplaced)

theorem map_kind_of_map_face {ts ts' : List Token} (h : ts.map Token.face = ts'.map Token.face) :
    ts.map Token.kind = ts'.map Token.kind := by
  have hkinds := congrArg (List.map Prod.fst) h
  rwa [List.map_map, List.map_map] at hkinds

namespace Parser

/-- The parser does not look at places. -/
def Pairing.alike : Pairing where
  paired ts ts' := ts.map Token.face = ts'.map Token.face
  parted _ := False
  closes := False
  head h := by
    have hkinds := congrArg List.head? (map_kind_of_map_face h)
    rwa [List.head?_map, List.head?_map] at hkinds
  tail h := .inl (List.cons.inj h).2
  isEmpty {t t' ts ts'} h _ := by
    have hlength := congrArg List.length (List.cons.inj h).2
    rw [List.length_map, List.length_map] at hlength
    exact .inl (by cases ts <;> cases ts' <;> simp_all)
  suffix h _ := h
  closing h _ := h

theorem map_face_body (tokens : List Token) :
    (body tokens).map Token.face
      = (tokens.map Token.face).takeWhile fun face => face.1 ≠ .endOfInput := by
  rw [List.takeWhile_map]
  rfl

theorem kind_final (tokens : List Token) : (final tokens).kind = .endOfInput := by
  rw [final]
  cases h : tokens.find? fun t => t.kind = .endOfInput with
  | some t => simpa using List.find?_some h
  | none =>
    rw [Option.getD_none]
    split <;> rfl

theorem unplaced_toError {f f' : Failure} {last last' : Token} (hcause : f.cause = f'.cause)
    (hrest : f.rest.map Token.face = f'.rest.map Token.face) (hlast : last.kind = last'.kind) :
    (f.toError last).unplaced = (f'.toError last').unplaced := by
  obtain ⟨cause, rest⟩ := f
  obtain ⟨cause', rest'⟩ := f'
  obtain rfl : cause = cause' := hcause
  cases rest with
  | nil =>
    obtain rfl : rest' = [] := List.map_eq_nil_iff.mp hrest.symm
    simp [ParseError.unplaced, Failure.toError, Failure.kind, Failure.message, Failure.culprit,
      hlast]
  | cons t rest =>
    obtain ⟨t', rest', rfl, hface, -⟩ := List.map_eq_cons_iff.mp hrest.symm
    obtain ⟨hkind, htext⟩ := Prod.mk.inj hface
    simp [ParseError.unplaced, Failure.toError, Failure.kind, Failure.message, Failure.culprit,
      hkind, htext]

/-- Without errors among the tokens the parser decides. -/
theorem run_of_error_not_mem {α : Type} (whole : Cursor → Except Failure α) {tokens : List Token}
    (h : ∀ message, .error message ∉ tokens.map Token.kind) :
    run whole tokens
      = (whole ⟨body tokens, 0⟩).mapError fun f => [f.toError (final tokens)] := by
  rw [run, (lexicalErrors_eq_nil_iff tokens).mpr h]

/-- Tokens that differ in their places are read in the same way. -/
theorem unplaced_parseTokens {ts ts' : List Token} (h : ts.map Token.face = ts'.map Token.face)
    (herr : ∀ message, .error message ∉ ts.map Token.kind) :
    unplaced (parseTokens ts) = unplaced (parseTokens ts') := by
  have hbody : (body ts).map Token.face = (body ts').map Token.face := by
    rw [map_face_body, h, map_face_body]
  rw [parseTokens, run_of_error_not_mem _ herr,
    run_of_error_not_mem _ (by rwa [← map_kind_of_map_face h])]
  have hpaired : Pairing.alike.paired (Cursor.mk (body ts) 0).rest (Cursor.mk (body ts') 0).rest :=
    hbody
  rcases hwhole : wholeQuery ⟨body ts, 0⟩ with f | q
  · obtain ⟨f', hwhole', hcause, hrest⟩ | hfalse | ⟨hfalse, -⟩ :=
      Pairing.wholeQuery_eq_error hpaired hwhole
    · have herror := unplaced_toError hcause hrest ((kind_final ts).trans (kind_final ts').symm)
      rw [hwhole']
      exact congrArg (fun e => Except.error [e]) herror
    · exact hfalse.elim
    · exact hfalse.elim
  · obtain ⟨q', hwhole', hq⟩ | ⟨_, hfalse⟩ := Pairing.wholeQuery_eq_ok hpaired hwhole
    · rw [hwhole']
      exact congrArg Except.ok hq
    · exact hfalse.elim

end Parser

/-! ### Texts that differ in their trivia -/

theorem kinds_eq_map_lexemes (cs : List Char) : kinds cs = (lexemes cs).map Prod.fst := by
  rw [kinds, lexemes, List.map_filterMap]
  refine List.filterMap_congr fun p _ => ?_
  cases p <;> rfl

theorem map_face_place (p : Position) (ps : List Piece) :
    (place p ps).map Token.face = (ps.filterMap Piece.lexeme?).map
      (fun l => (l.1, String.ofList l.2)) ++ [(.endOfInput, "")] := by
  induction ps generalizing p with
  | nil => rfl
  | cons piece ps ih =>
    cases piece with
    | trivia gap => exact ih _
    | lexeme kind text => exact congrArg ((kind, String.ofList text) :: ·) (ih _)

theorem map_face_tokenize (source : String) : (tokenize source).map Token.face
    = (lexemes source.toList).map (fun l => (l.1, String.ofList l.2)) ++ [(.endOfInput, "")] :=
  map_face_place _ _

/-- The characters of the lexemes of a text are those on which its tokens stand. -/
theorem map_slice_body (source : String) :
    ((Parser.body (tokenize source)).map fun t => (t.span.slice source).toList)
      = (lexemes source.toList).map Prod.snd := by
  have hslice : ∀ t ∈ Parser.body (tokenize source),
      (t.span.slice source).toList = (Prod.snd t.face).toList := by
    intro t ht
    have hmem := (List.takeWhile_prefix _).subset ht
    rw [← (Token.text_eq_slice hmem).1]
    rfl
  have hend : ∀ l ∈ lexemes source.toList, l.1 ≠ .endOfInput := by
    intro l hl heq
    refine endOfInput_not_mem_kinds source.toList ?_
    rw [kinds_eq_map_lexemes]
    exact List.mem_map.mpr ⟨l, hl, heq⟩
  have hfaces : (Parser.body (tokenize source)).map Token.face
      = (lexemes source.toList).map fun l => (l.1, String.ofList l.2) := by
    rw [Parser.map_face_body, map_face_tokenize, List.takeWhile_append_of_pos]
    · simp
    · exact List.forall_mem_map.mpr fun l hl => decide_eq_true (hend l hl)
  have hsnd := congrArg (List.map fun face => face.2.toList) hfaces
  rw [List.map_map, List.map_map] at hsnd
  rw [List.map_congr_left hslice]
  refine hsnd.trans (List.map_congr_left fun l _ => ?_)
  exact String.toList_ofList

/-- Let a text have no errors among its tokens, and let the texts of these stand in a second one,
in the same order and with some trivia between them. Then this has the same tokens, and is read
like the first text, up to places. -/
theorem parse_spread {source source' : String}
    (herr : ∀ t ∈ tokenize source, t.kind.isError = false)
    (h : Spread True
      ((Parser.body (tokenize source)).map fun t => (t.span.slice source).toList)
      source'.toList) :
    (tokenize source').map Token.kind = (tokenize source).map Token.kind
      ∧ unplaced (parse source') = unplaced (parse source) := by
  have herr' : ∀ message, .error message ∉ (tokenize source).map Token.kind := by
    intro message hmem
    obtain ⟨t, ht, hkind⟩ := List.mem_map.mp hmem
    have hno := herr t ht
    rw [hkind] at hno
    cases hno
  have hkinds : ∀ message, .error message ∉ kinds source.toList := fun message hmem =>
    herr' message (by rw [Parser.map_kind_tokenize]; exact List.mem_append_left _ hmem)
  rw [map_slice_body] at h
  have hlexemes := lexemes_spread h pieces_of_mem_lexemes fun l hl message hl' =>
    hkinds message (by
      rw [kinds_eq_map_lexemes]
      exact List.mem_map.mpr ⟨l, hl, hl'⟩)
  have hfaces : (tokenize source).map Token.face = (tokenize source').map Token.face := by
    rw [map_face_tokenize, map_face_tokenize, hlexemes]
  exact ⟨(map_kind_of_map_face hfaces).symm, (Parser.unplaced_parseTokens hfaces herr').symm⟩

/-- Comments and line feeds between the tokens of a query, the last comment left open. -/
theorem parse_spread_comments :
    let source := "a where x==-1.5;"
    let source' := "a//\nwhere/*é*/x ==\n-1.5/**/;/*"
    (tokenize source').map Token.kind = (tokenize source).map Token.kind
      ∧ unplaced (parse source') = unplaced (parse source) := by
  intro source source'
  have htexts : ((Parser.body (tokenize source)).map fun t => (t.span.slice source).toList)
      = [['a'], ['w', 'h', 'e', 'r', 'e'], ['x'], ['=', '='], ['-', '1', '.', '5'], [';']] := by
    decide +kernel
  have hsource : source'.toList = [] ++ (['a'] ++ (['/', '/', '\n'] ++ (['w', 'h', 'e', 'r', 'e']
      ++ (['/', '*', 'é', '*', '/'] ++ (['x'] ++ ([' '] ++ (['=', '='] ++ (['\n']
      ++ (['-', '1', '.', '5'] ++ (['/', '*', '*', '/'] ++ ([';'] ++ ['/', '*'])))))))))))
      := by decide +kernel
  refine parse_spread (by decide +kernel) ?_
  rw [htexts, hsource]
  refine .text .nil (.inr trivial) ?_
  refine .text (@IsTrivia.line _ [] [] (by simp) .nil) (.inl (by simp)) ?_
  refine .text (@IsTrivia.block _ ['é'] [] (by decide) .nil) (.inl (by simp)) ?_
  refine .text (.blank (by decide) .nil) (.inl (by simp)) ?_
  refine .text (.blank (by decide) .nil) (.inl (by simp)) ?_
  refine .text (@IsTrivia.block _ [] [] (by decide) .nil) (.inl (by simp)) ?_
  exact .done (@IsTrivia.openBlock _ [] trivial (by decide))

end NodeQuery
