/-
The lexemes of a part of a text.

A text that is cut out of another one between the first character of a lexeme and the last one of
the same or a later lexeme has the same lexemes by itself as it has there, errors among them or not:
a lexeme does not depend on what stands in front of it, nor on what stands behind it.

* `pieces_behind`: the pieces of a text without its first pieces.
* `pieces_front`: those of a text without its last pieces.
* `exists_frames_of_tokenize`: the text on which tokens stand that follow one another.
* `tokenize_slice`: the text on which one token stands.
-/
import NodeQuery.Proofs.Parsing
import NodeQuery.Proofs.Tiling

namespace NodeQuery

/-! ### Texts that are cut off -/

/-- Trivia ends at the same place if the text is cut off behind the next character. -/
theorem Trivia.extent_take {mode : Mode} {cs : List Char} {n : Nat} (h : extent mode cs < n) :
    extent mode (cs.take n) = extent mode cs := by
  have hhead : ∀ {m : Nat} {ds : List Char} {d : Char}, ds.head? ≠ some d →
      (ds.take m).head? ≠ some d := by
    intro m ds d hds
    rw [List.head?_take]
    split_ifs
    · simp
    · exact hds
  fun_induction extent mode cs generalizing n with
  | case1 cs ih =>
    obtain ⟨n, rfl⟩ : ∃ m, n = m + 2 := ⟨n - 2, by omega⟩
    rw [List.take_succ_cons, List.take_succ_cons, extent, ih (by omega)]
  | case2 cs ih =>
    obtain ⟨n, rfl⟩ : ∃ m, n = m + 2 := ⟨n - 2, by omega⟩
    rw [List.take_succ_cons, List.take_succ_cons, extent, ih (by omega)]
  | case3 c cs h1 h2 hc ih =>
    obtain ⟨n, rfl⟩ : ∃ m, n = m + 1 := ⟨n - 1, by omega⟩
    have hslash : c ≠ '/' := by
      rintro rfl
      exact absurd hc (by decide)
    rw [List.take_succ_cons, extent_code_cons fun heq => absurd heq hslash, if_pos hc,
      ih (by omega)]
  | case4 c cs h1 h2 hc =>
    obtain ⟨n, rfl⟩ : ∃ m, n = m + 1 := ⟨n - 1, by omega⟩
    rw [List.take_succ_cons, extent_code_cons, if_neg hc]
    -- what is no comment does not become one
    rintro rfl
    refine ⟨hhead fun hcs => ?_, hhead fun hcs => ?_⟩
    · obtain ⟨ds, rfl⟩ := List.head?_eq_some_iff.mp hcs
      exact h1 ds rfl rfl
    · obtain ⟨ds, rfl⟩ := List.head?_eq_some_iff.mp hcs
      exact h2 ds rfl rfl
  | case5 cs ih =>
    obtain ⟨n, rfl⟩ : ∃ m, n = m + 1 := ⟨n - 1, by omega⟩
    rw [List.take_succ_cons, extent, ih (by omega)]
  | case6 c cs hc ih =>
    obtain ⟨n, rfl⟩ : ∃ m, n = m + 1 := ⟨n - 1, by omega⟩
    rw [List.take_succ_cons, extent_line_cons hc, ih (by omega)]
  | case7 cs ih =>
    obtain ⟨n, rfl⟩ : ∃ m, n = m + 2 := ⟨n - 2, by omega⟩
    rw [List.take_succ_cons, List.take_succ_cons, extent, ih (by omega)]
  | case8 c cs hc ih =>
    obtain ⟨n, rfl⟩ : ∃ m, n = m + 1 := ⟨n - 1, by omega⟩
    rw [List.take_succ_cons, extent_block_cons, ih (by omega)]
    rintro rfl
    refine hhead fun hcs => ?_
    obtain ⟨ds, rfl⟩ := List.head?_eq_some_iff.mp hcs
    exact hc ds rfl rfl
  | case9 mode =>
    rw [List.take_nil]
    cases mode <;> rfl

/-- The characters of pieces. -/
def textOf (ps : List Piece) : List Char :=
  ps.flatMap Piece.text

theorem textOf_pieces (cs : List Char) : textOf (pieces cs) = cs :=
  flatMap_text_pieces cs

theorem pieces_of_trivia {c : Char} {cs : List Char} {n : Nat}
    (h : Trivia.extent .code (c :: cs) = n + 1) :
    pieces (c :: cs) = .trivia (c :: cs.take n) :: pieces (cs.drop n) := by
  rw [pieces, h]

theorem pieces_of_lexeme {c : Char} {cs : List Char} (h : Trivia.extent .code (c :: cs) = 0) :
    pieces (c :: cs) = .lexeme (Lexeme.read c cs).1 (c :: cs.take (Lexeme.read c cs).2)
      :: pieces (cs.drop (Lexeme.read c cs).2) := by
  rw [pieces, h]

/-- The pieces of a text from one of them on do not depend on what is in front of it. -/
theorem pieces_behind {cs : List Char} {ps qs : List Piece} (h : pieces cs = ps ++ qs) :
    pieces (textOf qs) = qs := by
  induction ps generalizing cs with
  | nil => rw [← List.nil_append qs, ← h, textOf_pieces]
  | cons p ps ih =>
    cases cs with
    | nil =>
      rw [pieces] at h
      cases h
    | cons c cs =>
      cases hext : Trivia.extent .code (c :: cs) with
      | zero =>
        rw [pieces_of_lexeme hext] at h
        exact ih (List.cons.inj h).2
      | succ n =>
        rw [pieces_of_trivia hext] at h
        exact ih (List.cons.inj h).2

theorem text_ne_nil_of_mem_pieces {cs : List Char} : ∀ p ∈ pieces cs, p.text ≠ [] := by
  induction cs using pieces.induct with
  | case1 => simp [pieces]
  | case2 c cs n h ih =>
    rw [pieces_of_trivia h]
    exact List.forall_mem_cons.mpr ⟨List.cons_ne_nil _ _, ih⟩
  | case3 c cs h kind n hread ih =>
    rw [pieces_of_lexeme h, hread]
    exact List.forall_mem_cons.mpr ⟨List.cons_ne_nil _ _, ih⟩

/-- The first piece of a text that is cut off behind it, or later if the piece is trivia. -/
theorem pieces_take_cons {cs : List Char} {p : Piece} {qs : List Piece} (h : pieces cs = p :: qs)
    {m : Nat} (hm : p.kind? = none → 0 < m) :
    pieces (cs.take (p.text.length + m)) = p :: pieces ((cs.drop p.text.length).take m) := by
  cases cs with
  | nil =>
    rw [pieces] at h
    cases h
  | cons c cs =>
    have hshift : ∀ n, (c :: cs).take (n + 1 + m) = c :: cs.take (n + m) := fun n => by
      rw [Nat.add_right_comm, List.take_succ_cons]
    cases hext : Trivia.extent .code (c :: cs) with
    | zero =>
      generalize hread : Lexeme.read c cs = r
      obtain ⟨kind, n⟩ := r
      have hn := Lexeme.read_le c cs
      rw [hread] at hn
      rw [pieces_of_lexeme hext, hread] at h
      obtain ⟨rfl, -⟩ := List.cons.inj h
      have hlen : (Piece.lexeme kind (c :: cs.take n)).text.length = n + 1 := by
        simpa [Piece.text] using hn
      have hext' : Trivia.extent .code (c :: cs.take (n + m)) = 0 := by
        rw [← List.take_succ_cons, Trivia.extent_take (by omega), hext]
      have hread' : Lexeme.read c (cs.take (n + m)) = (kind, n) := by
        rw [Lexeme.read_take (by rw [hread]; exact Nat.le_add_right n m), hread]
      rw [hlen, hshift, pieces_of_lexeme hext', hread', List.take_take,
        Nat.min_eq_left (Nat.le_add_right n m), List.drop_take, Nat.add_sub_cancel_left,
        List.drop_succ_cons]
    | succ n =>
      have hn := Trivia.extent_le .code (c :: cs)
      rw [hext, List.length_cons] at hn
      rw [pieces_of_trivia hext] at h
      obtain ⟨rfl, -⟩ := List.cons.inj h
      have hpos := hm rfl
      have hlen : (Piece.trivia (c :: cs.take n)).text.length = n + 1 := by
        simpa [Piece.text] using hn
      have hext' : Trivia.extent .code (c :: cs.take (n + m)) = n + 1 := by
        rw [← List.take_succ_cons, Trivia.extent_take (by omega), hext]
      rw [hlen, hshift, pieces_of_trivia hext', List.take_take,
        Nat.min_eq_left (Nat.le_add_right n m), List.drop_take, Nat.add_sub_cancel_left,
        List.drop_succ_cons]

/-- The same, if the text is cut off behind a later piece. -/
theorem pieces_cons_front {cs : List Char} {p : Piece} {ps rs : List Piece}
    (h : pieces cs = p :: (ps ++ rs)) (hne : p.kind? = none → textOf ps ≠ []) :
    pieces (textOf (p :: ps)) = p :: pieces (textOf ps) := by
  have htext : cs = p.text ++ (textOf ps ++ textOf rs) := by
    rw [← textOf_pieces cs, h, textOf, List.flatMap_cons, List.flatMap_append]
    rfl
  have hcons := @pieces_take_cons cs p _ h (textOf ps).length fun hp =>
    List.length_pos_of_ne_nil (hne hp)
  rw [htext, List.take_length_add_append, List.drop_left, List.take_left] at hcons
  exact hcons

/-- The pieces of a text up to a lexeme do not depend on what is behind it. -/
theorem pieces_front {cs : List Char} {ps rs : List Piece} {kind : Token.Kind} {text : List Char}
    (h : pieces cs = ps ++ .lexeme kind text :: rs) :
    pieces (textOf (ps ++ [.lexeme kind text])) = ps ++ [.lexeme kind text] := by
  induction ps generalizing cs with
  | nil =>
    rw [List.nil_append, @pieces_cons_front cs (.lexeme kind text) [] rs h nofun]
    simp [textOf, pieces]
  | cons p ps ih =>
    have hlast : text ≠ [] :=
      text_ne_nil_of_mem_pieces (.lexeme kind text) (by rw [h]; simp)
    have hsplit : pieces cs = p :: (ps ++ [.lexeme kind text] ++ rs) := by simp [h]
    rw [List.cons_append, pieces_cons_front hsplit fun _ => by simp [textOf, Piece.text, hlast],
      ih (@pieces_behind cs [p] _ h)]

/-! ### The text on which tokens stand -/

/-- Each token but the last stands on a lexeme. -/
theorem exists_piece_of_place {p : Position} {ps : List Piece} {ts ws : List Token} {t : Token}
    (h : place p ps = ts ++ t :: ws) (hws : ws ≠ []) :
    ∃ qs kind text rs, ps = qs ++ .lexeme kind text :: rs
      ∧ qs.filterMap Piece.kind? = ts.map Token.kind
      ∧ t = ⟨kind, p.after (textOf qs), (p.after (textOf qs ++ text)).offset, String.ofList text⟩
      ∧ place (p.after (textOf qs ++ text)) rs = ws := by
  induction ps generalizing p ts with
  | nil =>
    have hlen := congrArg List.length h
    simp only [place, List.length_append, List.length_cons, List.length_nil] at hlen
    exact absurd (List.length_eq_zero_iff.mp (by omega)) hws
  | cons piece ps ih =>
    cases piece with
    | trivia gap =>
      obtain ⟨qs, kind, text, rs, rfl, hkinds, rfl, hrest⟩ := ih h
      exact ⟨.trivia gap :: qs, kind, text, rs, rfl, hkinds, by simp [textOf, Piece.text],
        by simpa [textOf, Piece.text] using hrest⟩
    | lexeme kind text =>
      cases ts with
      | nil =>
        obtain ⟨rfl, hrest⟩ := List.cons.inj h
        exact ⟨[], kind, text, ps, rfl, rfl, by simp [textOf], by simpa [textOf] using hrest⟩
      | cons s ts =>
        obtain ⟨rfl, hrest⟩ := List.cons.inj h
        obtain ⟨qs, k, w, rs, rfl, hkinds, rfl, hbehind⟩ := ih hrest
        refine ⟨.lexeme kind text :: qs, k, w, rs, rfl, ?_, by simp [textOf, Piece.text],
          by simpa [textOf, Piece.text] using hbehind⟩
        rw [List.map_cons, ← hkinds]
        rfl

theorem textOf_append (ps qs : List Piece) : textOf (ps ++ qs) = textOf ps ++ textOf qs :=
  List.flatMap_append

/-- Pieces that follow one another frame the text between them. -/
theorem Frames.of_pieces {source : String} {qs ms rs : List Piece}
    (h : pieces source.toList = qs ++ ms ++ rs) :
    Frames source ⟨(Position.behind (textOf qs)).offset,
      (Position.behind (textOf qs ++ textOf ms)).offset⟩ (textOf qs) (textOf ms) (textOf rs) := by
  refine ⟨?_, ?_, ?_⟩
  · rw [← textOf_pieces source.toList, h, textOf_append, textOf_append]
  · show (Position.behind (textOf qs)).offset = _
    rw [Position.behind_eq]
  · show (Position.behind (textOf qs ++ textOf ms)).offset = _
    rw [Position.behind_eq, String.utf8Len_append]

/-- Pieces that follow one another, the last of them a lexeme, are those of their text. -/
theorem pieces_textOf {cs : List Char} {qs ms rs : List Piece} {kind : Token.Kind}
    {text : List Char} (h : pieces cs = qs ++ (ms ++ [.lexeme kind text]) ++ rs) :
    pieces (textOf (ms ++ [.lexeme kind text])) = ms ++ [.lexeme kind text] := by
  have hbehind : pieces (textOf (ms ++ .lexeme kind text :: rs)) = ms ++ .lexeme kind text :: rs :=
    @pieces_behind cs qs _ (by simp [h])
  exact pieces_front hbehind

/-- The tokens behind some pieces are those of the text that is left. -/
theorem kinds_behind {cs : List Char} {ps rs : List Piece} {p : Position} {ws : List Token}
    (h : pieces cs = ps ++ rs) (hws : place p rs = ws) :
    kinds (textOf rs) ++ [.endOfInput] = ws.map Token.kind := by
  rw [kinds, pieces_behind h, ← hws, Parser.map_kind_place]

/-- Tokens that follow one another stand on a text of which they are the lexemes, and the tokens
behind them are those of the text that is left. -/
theorem exists_frames_of_tokenize {source : String} {ts us ws : List Token} {first last : Token}
    (h : tokenize source = ts ++ us ++ ws) (hws : ws ≠ []) (hfirst : us.head? = some first)
    (hlast : us.getLast? = some last) :
    ∃ front text rest, Frames source ⟨first.start.offset, last.stop⟩ front text rest
      ∧ kinds text = us.map Token.kind ∧ kinds rest ++ [.endOfInput] = ws.map Token.kind := by
  obtain ⟨us', rfl⟩ := List.head?_eq_some_iff.mp hfirst
  -- the text begins with the first of the tokens
  rw [List.append_assoc, List.cons_append] at h
  obtain ⟨qs, kind, text, rs, hps, -, rfl, hrest⟩ := exists_piece_of_place h (by simp [hws])
  obtain rfl | ⟨vs, l, rfl⟩ := List.eq_nil_or_concat us'
  · -- and ends with it, if it is the only one
    have hsplit : pieces source.toList = qs ++ ([] ++ [.lexeme kind text]) ++ rs := by simp [hps]
    have hframes := Frames.of_pieces hsplit
    have hkinds : kinds (textOf ([] ++ [.lexeme kind text])) = [kind] := by
      rw [kinds, pieces_textOf hsplit]
      rfl
    have htext : textOf ([] ++ [.lexeme kind text]) = text := by simp [textOf, Piece.text]
    rw [htext] at hframes hkinds
    obtain rfl := Option.some.inj hlast
    exact ⟨_, _, _, hframes, hkinds, kinds_behind hsplit hrest⟩
  · rw [List.concat_eq_append, List.append_assoc] at hrest
    obtain ⟨qs', k, w, rs', rfl, hvs, rfl, hbehind⟩ := exists_piece_of_place hrest hws
    have hsplit : pieces source.toList
        = qs ++ (.lexeme kind text :: qs' ++ [.lexeme k w]) ++ rs' := by simp [hps]
    have hframes := Frames.of_pieces hsplit
    have hkinds : kinds (textOf (.lexeme kind text :: qs' ++ [.lexeme k w]))
        = kind :: (vs.map Token.kind ++ [k]) := by
      rw [kinds, pieces_textOf hsplit, ← hvs]
      simp [Piece.kind?]
    have htext : textOf (.lexeme kind text :: qs' ++ [.lexeme k w])
        = text ++ (textOf qs' ++ w) := by
      simp [textOf, Piece.text]
    have hplace : Position.behind (textOf qs ++ (text ++ (textOf qs' ++ w)))
        = (Position.after {} (textOf qs ++ text)).after (textOf qs' ++ w) := by
      simp [Position.behind]
    rw [htext, hplace] at hframes
    rw [htext] at hkinds
    rw [List.concat_eq_append, ← List.cons_append, List.getLast?_concat] at hlast
    obtain rfl := Option.some.inj hlast
    refine ⟨_, _, _, hframes, hkinds.trans ?_, kinds_behind hsplit hbehind⟩
    rw [List.concat_eq_append, List.map_cons, List.map_append, List.map_singleton]

/-! ### The text of one token -/

/-- A token but the end of the input is what is read of its text alone: this has the same token,
error or not, from its first byte to its last, and behind it the end of the input. -/
theorem tokenize_slice {source : String} {t : Token} (ht : t ∈ tokenize source)
    (hkind : t.kind ≠ .endOfInput) :
    let text := t.span.slice source
    tokenize text = [⟨t.kind, {}, text.utf8ByteSize, text⟩,
      ⟨.endOfInput, .behind text.toList, text.utf8ByteSize, ""⟩] := by
  intro text
  -- some token stands behind this one, since the last token is the end of the input
  obtain ⟨ts, ws, hsplit⟩ := List.append_of_mem ht
  have hws : ws ≠ [] := by
    rintro rfl
    obtain ⟨us, e, hend, he, -⟩ := exists_tokenize_eq_concat source
    obtain rfl : t = e := by simpa using congrArg List.getLast? (hsplit.symm.trans hend)
    exact hkind he
  obtain ⟨qs, kind, cs, rs, hpieces, -, rfl, -⟩ := exists_piece_of_place hsplit hws
  have hpieces : pieces source.toList = qs ++ ([] ++ [.lexeme kind cs]) ++ rs := by
    simp [hpieces]
  have hcs : textOf ([] ++ [.lexeme kind cs]) = cs := by simp [textOf, Piece.text]
  have hframes := Frames.of_pieces hpieces
  have halone := pieces_textOf hpieces
  rw [hcs] at hframes halone
  have htext : text = String.ofList cs := hframes.slice_eq
  have hsize : (Position.after {} cs).offset = text.utf8ByteSize := by
    rw [htext, String.utf8ByteSize_ofList]
    exact congrArg Position.offset (Position.behind_eq cs)
  rw [tokenize, htext, String.toList_ofList, halone, ← htext, ← hsize, htext]
  rfl

/-- A string with an escape that does not exist, in front of which an exponent has no digits. -/
theorem tokenize_slice_escape :
    let source := "1e+\"é\\q\" \"a"
    let t : Token := ⟨.error "Invalid escape sequence: \\q", ⟨3, 1, 4⟩, 9, "\"é\\q\""⟩
    t ∈ tokenize source ∧ t.kind ≠ .endOfInput ∧ t.span.slice source = "\"é\\q\""
      ∧ tokenize "\"é\\q\"" = [⟨t.kind, {}, 6, "\"é\\q\""⟩, ⟨.endOfInput, ⟨6, 1, 6⟩, 6, ""⟩] := by
  intro source t
  have ht : t ∈ tokenize source := by decide +kernel
  have hslice : t.span.slice source = "\"é\\q\"" := by decide +kernel
  have halone := tokenize_slice ht (by decide)
  rw [hslice] at halone
  exact ⟨ht, by decide, hslice, halone⟩

end NodeQuery
