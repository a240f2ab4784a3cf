/-
The tokens of a text tile it.

The tokens stand in the text one behind the other, each on the characters that it was read from,
and what is left between them is trivia. So every place that a token bears can be worked out from
the text alone, in bytes as well as in lines and columns.

* `Position.behind_eq`: the place behind a text in terms of its characters.
* `IsTrivia`: the texts that are blanks and comments; `Trivia.isTrivia_take_extent`: the text that
  is passed over as trivia is of this sort.
* `Tiles`, `tiles_place`: how tokens stand in a text, and that the tokens of its pieces do.
* `Span.slice`, `Token.gaps`: the text of a span, and the spans between tokens.
* `tokenize_tiles`: the tokens of a text, with their places.
-/
import Mathlib.Data.List.DropRight
import Mathlib.Data.String.Basic
import NodeQuery.Proofs.Lexing

namespace NodeQuery

/-! ### Places -/

/-- The place behind a text, from its beginning on. -/
def Position.behind (cs : List Char) : Position :=
  Position.after {} cs

/-- In front of the place behind a text are its bytes and its line feeds, and on the same line the
characters behind the last line feed. -/
theorem Position.behind_eq (cs : List Char) :
    behind cs = ⟨String.utf8Len cs, 1 + cs.count '\n',
      1 + (cs.rtakeWhile fun c => c ≠ '\n').length⟩ := by
  induction cs using List.reverseRecOn with
  | nil => rfl
  | append_singleton cs c ih =>
    have hafter : behind (cs ++ [c]) = (behind cs).next c := Position.after_append _ cs [c]
    rw [hafter, ih, Position.next, List.rtakeWhile_concat]
    by_cases hc : c = '\n'
    · simp [hc, Nat.add_assoc]
    · simp [hc, Nat.add_assoc]

/-! ### Trivia -/

/-- Blanks and comments, one behind the other. A comment of one line ends with a line feed and any
other with the first `*/` in it, but for the last one if the trivia is `final`. -/
inductive IsTrivia (final : Prop) : List Char → Prop where
  | nil : IsTrivia final []
  | blank {c : Char} {cs : List Char} (hc : Text.isBlank c = true) (h : IsTrivia final cs) :
      IsTrivia final (c :: cs)
  | line {text cs : List Char} (htext : '\n' ∉ text) (h : IsTrivia final cs) :
      IsTrivia final ('/' :: '/' :: (text ++ '\n' :: cs))
  | block {text cs : List Char} (htext : ¬['*', '/'] <:+: text) (h : IsTrivia final cs) :
      IsTrivia final ('/' :: '*' :: (text ++ '*' :: '/' :: cs))
  | openLine {text : List Char} (hfinal : final) (htext : '\n' ∉ text) :
      IsTrivia final ('/' :: '/' :: text)
  | openBlock {text : List Char} (hfinal : final) (htext : ¬['*', '/'] <:+: text) :
      IsTrivia final ('/' :: '*' :: text)

namespace IsTrivia

variable {p q : Prop} {as bs : List Char}

theorem mono (hpq : p → q) (h : IsTrivia p as) : IsTrivia q as := by
  induction h with
  | nil => exact .nil
  | blank hc h ih => exact .blank hc ih
  | line htext h ih => exact .line htext ih
  | block htext h ih => exact .block htext ih
  | openLine hfinal htext => exact .openLine (hpq hfinal) htext
  | openBlock hfinal htext => exact .openBlock (hpq hfinal) htext

/-- Trivia of which all comments are ended, with trivia behind it. -/
theorem append (ha : IsTrivia False as) (hb : IsTrivia q bs) : IsTrivia q (as ++ bs) := by
  induction ha with
  | nil => exact hb
  | blank hc h ih => exact .blank hc ih
  | line htext h ih => simpa using line htext ih
  | block htext h ih => simpa using block htext ih
  | openLine hfinal => exact hfinal.elim
  | openBlock hfinal => exact hfinal.elim

end IsTrivia

namespace Trivia

/-- A comment of one line goes on behind its line feed, or to the end of the text. -/
theorem extent_line (cs : List Char) :
    (∃ text rest, cs = text ++ '\n' :: rest ∧ '\n' ∉ text
        ∧ extent .lineComment cs = text.length + (extent .code rest + 1))
      ∨ '\n' ∉ cs ∧ extent .lineComment cs = cs.length := by
  induction cs with
  | nil => exact .inr ⟨List.not_mem_nil, rfl⟩
  | cons c cs ih =>
    by_cases hc : c = '\n'
    · subst hc
      refine .inl ⟨[], cs, rfl, List.not_mem_nil, ?_⟩
      rw [extent, List.length_nil, Nat.zero_add]
    · rw [extent_line_cons hc]
      obtain ⟨text, rest, rfl, htext, hextent⟩ | ⟨hcs, hextent⟩ := ih
      · refine .inl ⟨c :: text, rest, rfl, by simp [htext, Ne.symm hc], ?_⟩
        rw [hextent, List.length_cons]
        omega
      · exact .inr ⟨by simp [hcs, Ne.symm hc], by rw [hextent, List.length_cons]⟩

/-- Any other comment goes on behind the first `*/` in it, or to the end of the text. -/
theorem extent_block (cs : List Char) :
    (∃ text rest, cs = text ++ '*' :: '/' :: rest ∧ ¬['*', '/'] <:+: text
        ∧ extent .blockComment cs = text.length + (extent .code rest + 2))
      ∨ ¬['*', '/'] <:+: cs ∧ extent .blockComment cs = cs.length := by
  induction cs with
  | nil => exact .inr ⟨by simp, rfl⟩
  | cons c cs ih =>
    by_cases hc : c = '*' ∧ cs.head? = some '/'
    · obtain ⟨rfl, hhead⟩ := hc
      obtain ⟨rest, rfl⟩ := List.head?_eq_some_iff.mp hhead
      refine .inl ⟨[], rest, rfl, by simp, ?_⟩
      rw [extent, List.length_nil, Nat.zero_add]
    · -- what is read so far ends the comment neither by itself nor with what is behind it
      have hstart : ∀ ds, ds.head? = some '/' → ds <+: cs → c ≠ '*' := by
        rintro ds hds ⟨rest, rfl⟩ rfl
        exact hc ⟨rfl, by simp [hds]⟩
      have hcons : ∀ ds, ds <+: cs → ¬['*', '/'] <:+: ds → ¬['*', '/'] <:+: c :: ds := by
        intro ds hds hno hinfix
        obtain hprefix | hinfix := List.infix_cons_iff.mp hinfix
        · obtain ⟨rest, hrest⟩ := hprefix
          simp only [List.cons_append, List.nil_append, List.cons.injEq] at hrest
          obtain ⟨rfl, rfl⟩ := hrest
          exact hstart _ rfl hds rfl
        · exact hno hinfix
      rw [extent_block_cons (not_and.mp hc)]
      obtain ⟨text, rest, rfl, htext, hextent⟩ | ⟨hcs, hextent⟩ := ih
      · refine .inl ⟨c :: text, rest, rfl, hcons _ (List.prefix_append _ _) htext, ?_⟩
        rw [hextent, List.length_cons]
        omega
      · exact .inr ⟨hcons _ (List.prefix_refl _) hcs, by rw [hextent, List.length_cons]⟩

/-- What is passed over in front of a text is trivia, and is final only if it is all of it. -/
theorem isTrivia_take_extent (cs : List Char) :
    IsTrivia (extent .code cs = cs.length) (cs.take (extent .code cs)) := by
  induction hn : cs.length using Nat.strong_induction_on generalizing cs with
  | _ n ih =>
    subst hn
    -- behind a comment or a blank stands a shorter text
    have key : ∀ rest : List Char, rest.length < cs.length →
        (extent .code rest = rest.length → extent .code cs = cs.length) →
        IsTrivia (extent .code cs = cs.length) (rest.take (extent .code rest)) :=
      fun rest hlt hfinal => (ih rest.length hlt rest rfl).mono hfinal
    cases cs with
    | nil => exact .nil
    | cons c cs =>
      by_cases hline : c = '/' ∧ cs.head? = some '/'
      · obtain ⟨rfl, hhead⟩ := hline
        obtain ⟨cs, rfl⟩ := List.head?_eq_some_iff.mp hhead
        obtain ⟨text, rest, rfl, htext, hextent⟩ | ⟨hcs, hextent⟩ := extent_line cs
        · have hrest := key rest (by simp; omega) (by simp [extent, hextent])
          simpa [extent, hextent, List.take_length_add_append] using IsTrivia.line htext hrest
        · have hall : extent .code ('/' :: '/' :: cs) = ('/' :: '/' :: cs).length := by
            simp [extent, hextent]
          rw [hall, List.take_length]
          exact .openLine rfl hcs
      · by_cases hblock : c = '/' ∧ cs.head? = some '*'
        · obtain ⟨rfl, hhead⟩ := hblock
          obtain ⟨cs, rfl⟩ := List.head?_eq_some_iff.mp hhead
          obtain ⟨text, rest, rfl, htext, hextent⟩ | ⟨hcs, hextent⟩ := extent_block cs
          · have hrest := key rest (by simp; omega) (by simp [extent, hextent])
            simpa [extent, hextent, List.take_length_add_append] using IsTrivia.block htext hrest
          · have hall : extent .code ('/' :: '*' :: cs) = ('/' :: '*' :: cs).length := by
              simp [extent, hextent]
            rw [hall, List.take_length]
            exact .openBlock rfl hcs
        · have hcode : extent .code (c :: cs)
              = if Text.isBlank c then extent .code cs + 1 else 0 :=
            extent_code_cons fun hc => ⟨fun h => hline ⟨hc, h⟩, fun h => hblock ⟨hc, h⟩⟩
          rw [hcode] at key ⊢
          split_ifs at key ⊢ with hblank
          · exact .blank hblank (key cs (by simp) (by simp))
          · exact .nil

end Trivia

/-! ### How tokens stand in a text -/

/-- A literal and a name carry the characters that they were read from. -/
theorem Lexeme.eq_of_value?_read {c : Char} {cs : List Char} {raw : String}
    (h : (read c cs).1.value? = some raw) : raw = String.ofList (c :: cs.take (read c cs).2) := by
  have hword : ∀ w, (wordKind w).value? = some raw → raw = w := by
    intro w hw
    obtain hkind | hkind | hkind := wordKind_eq w
    · rw [hkind] at hw
      exact (Option.some.inj hw).symm
    · -- no reserved word is a value
      have hnone : ∀ kind ∈ Token.reserved, kind.value? = none := by decide
      rw [hnone _ hkind] at hw
      cases hw
    · rw [hkind] at hw
      exact (Option.some.inj hw).symm
  unfold read at h ⊢
  -- first marks, which carry nothing, then what begins with a quote, a digit or a letter
  split at h <;> simp only at h ⊢ <;> try cases h
  · split_ifs at h <;> cases h
  · split_ifs at h <;> cases h
  · split_ifs at h ⊢
    · exact (Option.some.inj h).symm
    · cases h
  · split_ifs at h ⊢
    · split at h
      · exact (Option.some.inj h).symm
      · cases h
    · exact (Option.some.inj h).symm
    · exact hword _ h
    · cases h

/-- The token of a kind that stands on `text`, with `front` in front of it. -/
def Token.on (kind : Token.Kind) (front text : List Char) : Token :=
  ⟨kind, .behind front, (Position.behind (front ++ text)).offset, String.ofList text⟩

/-- `Tiles front rest ts`: the tokens `ts` stand in the text `rest`, which has `front` in front of
it, each behind trivia and on characters of its own, and the end of the input behind all of it. -/
inductive Tiles : List Char → List Char → List Token → Prop where
  | done {front gap : List Char} (h : IsTrivia True gap) :
      Tiles front gap [.on .endOfInput (front ++ gap) []]
  | token {front gap text rest : List Char} {kind : Token.Kind} {ts : List Token}
      (h : IsTrivia False gap) (htext : text ≠ []) (hkind : kind ≠ .endOfInput)
      (hvalue : ∀ raw, kind.value? = some raw → raw = String.ofList text)
      (hs : Tiles (front ++ gap ++ text) rest ts) :
      Tiles front (gap ++ (text ++ rest)) (.on kind (front ++ gap) text :: ts)

/-- Trivia may stand in front of tokens. -/
theorem Tiles.of_trivia {front gap rest : List Char} {ts : List Token} (hgap : IsTrivia False gap)
    (h : Tiles (front ++ gap) rest ts) : Tiles front (gap ++ rest) ts := by
  cases h with
  | done h =>
    rw [List.append_assoc]
    exact .done (hgap.append h)
  | token h htext hkind hvalue hs =>
    rw [← List.append_assoc, List.append_assoc front]
    refine .token (hgap.append h) htext hkind hvalue ?_
    rwa [← List.append_assoc front]

/-- The tokens of the pieces of a text stand in it. -/
theorem tiles_place (front cs : List Char) :
    Tiles front cs (place (.behind front) (pieces cs)) := by
  have hbehind : ∀ front text, (Position.behind front).after text = .behind (front ++ text) :=
    fun front text => (Position.after_append _ front text).symm
  induction cs using pieces.induct generalizing front with
  | case1 =>
    have hall : Tiles front [] [.on .endOfInput (front ++ []) []] := .done .nil
    rw [pieces, place]
    simpa [Token.on] using hall
  | case2 c cs n h ih =>
    have htrivia := Trivia.isTrivia_take_extent (c :: cs)
    rw [h, List.take_succ_cons, List.length_cons] at htrivia
    rw [pieces, h]
    simp only [place, hbehind]
    have hsplit : c :: cs = (c :: cs.take n) ++ cs.drop n := by simp
    rw [hsplit]
    by_cases hn : n = cs.length
    · -- nothing stands behind the trivia
      subst hn
      have hall : Tiles front (c :: cs.take cs.length) _ :=
        .done (htrivia.mono fun _ => trivial)
      simpa [pieces, place, Token.on] using hall
    · exact (ih _).of_trivia (htrivia.mono fun heq => hn (Nat.succ.inj heq))
  | case3 c cs h kind n hread ih =>
    rw [pieces, h]
    simp only [hread, place, hbehind]
    have hkind := Lexeme.read_ne_endOfInput c cs
    have hvalue : ∀ raw, (Lexeme.read c cs).1.value? = some raw → _ :=
      fun raw => Lexeme.eq_of_value?_read
    rw [hread] at hkind hvalue
    have hrest := ih (front ++ [] ++ c :: cs.take n)
    have hall := Tiles.token .nil (List.cons_ne_nil c (cs.take n)) hkind hvalue hrest
    simpa [Token.on] using hall

/-! ### Spans -/

/-- The text of a source from the start of a span to its end. -/
def Span.slice (s : Span) (source : String) : String :=
  String.Pos.Raw.extract source ⟨s.start⟩ ⟨s.stop⟩

/-- The spans between tokens: from `start` to the first token, and from each to the next. -/
def Token.gaps (start : Nat) : List Token → List Span
  | [] => []
  | t :: ts => ⟨start, t.span.start⟩ :: gaps t.span.stop ts

/-- `Frames source s front text rest`: the source is cut into three parts, of which `text` is the
text of the span. -/
structure Frames (source : String) (s : Span) (front text rest : List Char) : Prop where
  source_eq : source.toList = front ++ text ++ rest
  start_eq : s.start = String.utf8Len front
  stop_eq : s.stop = String.utf8Len front + String.utf8Len text

namespace Frames

variable {source : String} {s : Span} {front text rest : List Char}

theorem eq_ofList (h : Frames source s front text rest) :
    source = String.ofList (front ++ text ++ rest) := by
  rw [← h.source_eq, String.ofList_toList]

theorem utf8ByteSize_eq (h : Frames source s front text rest) :
    source.utf8ByteSize = s.stop + String.utf8Len rest := by
  rw [h.eq_ofList, String.utf8ByteSize_ofList, String.utf8Len_append, String.utf8Len_append,
    h.stop_eq]

theorem slice_eq (h : Frames source s front text rest) : s.slice source = String.ofList text := by
  rw [Span.slice, h.eq_ofList, h.start_eq, h.stop_eq]
  exact String.extract_of_valid front text rest

/-- What is in front of a span is the slice of the source up to it. -/
theorem slice_front (h : Frames source s front text rest) :
    (Span.slice ⟨0, s.start⟩ source).toList = front := by
  have hfront : Frames source ⟨0, s.start⟩ [] front (text ++ rest) :=
    ⟨by simp [h.source_eq], rfl, by simp [h.start_eq]⟩
  rw [hfront.slice_eq, String.toList_ofList]

/-- The text from the start of a span on. -/
theorem slice_rest (h : Frames source s front text rest) :
    (Span.slice ⟨s.start, source.utf8ByteSize⟩ source).toList = text ++ rest := by
  have hrest : Frames source ⟨s.start, source.utf8ByteSize⟩ front (text ++ rest) [] := by
    refine ⟨by simp [h.source_eq], h.start_eq, ?_⟩
    rw [h.utf8ByteSize_eq, h.stop_eq, String.utf8Len_append, Nat.add_assoc]
  rw [hrest.slice_eq, String.toList_ofList]

theorem isValid_start (h : Frames source s front text rest) :
    String.Pos.Raw.IsValid source ⟨s.start⟩ := by
  refine String.Pos.Raw.isValid_iff_exists_append.mpr
    ⟨String.ofList front, String.ofList (text ++ rest), ?_, ?_⟩
  · rw [h.eq_ofList, List.append_assoc, String.ofList_append]
  · rw [h.start_eq, String.rawEndPos_ofList]

theorem isValid_stop (h : Frames source s front text rest) :
    String.Pos.Raw.IsValid source ⟨s.stop⟩ := by
  refine String.Pos.Raw.isValid_iff_exists_append.mpr
    ⟨String.ofList (front ++ text), String.ofList rest, ?_, ?_⟩
  · rw [h.eq_ofList, String.ofList_append]
  · rw [h.stop_eq, String.rawEndPos_ofList, String.utf8Len_append]

end Frames

/-! ### What is known of tokens that stand in a text -/

theorem Token.span_on (kind : Token.Kind) (front text : List Char) : (on kind front text).span
    = ⟨String.utf8Len front, String.utf8Len front + String.utf8Len text⟩ := by
  simp [on, span, Position.behind_eq]

namespace Tiles

variable {source : String} {front rest : List Char} {ts : List Token}

/-- The end of the input stands behind the text, and all other tokens on characters of it. -/
theorem exists_eq_concat (h : Tiles front rest ts) :
    ∃ ss e, ts = ss ++ [e] ∧ e.kind = .endOfInput
      ∧ e.span = ⟨String.utf8Len (front ++ rest), String.utf8Len (front ++ rest)⟩
      ∧ ∀ t ∈ ss, t.kind ≠ .endOfInput ∧ t.span.start < t.span.stop := by
  induction h with
  | done h => exact ⟨[], _, rfl, rfl, by simp [Token.span_on], by simp⟩
  | token h htext hkind hvalue hs ih =>
    obtain ⟨ss, e, rfl, he, hspan, hss⟩ := ih
    refine ⟨_ :: ss, e, rfl, he, by simpa using hspan, List.forall_mem_cons.mpr ⟨⟨hkind, ?_⟩, hss⟩⟩
    rw [Token.span_on]
    exact Nat.lt_add_of_pos_right (String.utf8Len_pos htext)

theorem le_start (h : Tiles front rest ts) : ∀ t ∈ ts, String.utf8Len front ≤ t.span.start := by
  induction h with
  | done h => simp [Token.span_on]
  | token h htext hkind hvalue hs ih =>
    refine List.forall_mem_cons.mpr ⟨by simp [Token.span_on], fun t ht => ?_⟩
    have := ih t ht
    simp only [String.utf8Len_append] at this
    omega

/-- Each token ends before the next ones start. -/
theorem pairwise (h : Tiles front rest ts) : ts.Pairwise fun s t => s.span.stop ≤ t.span.start := by
  induction h with
  | done h => exact List.pairwise_singleton ..
  | token h htext hkind hvalue hs ih =>
    refine List.pairwise_cons.mpr ⟨fun t ht => ?_, ih⟩
    have := hs.le_start t ht
    rwa [Token.span_on, ← String.utf8Len_append]

/-- Each token stands on a part of the source. -/
theorem exists_frames (h : Tiles front rest ts) (hsource : source.toList = front ++ rest) :
    ∀ t ∈ ts, ∃ before text behind, Frames source t.span before text behind
      ∧ t.start = .behind before ∧ t.text = String.ofList text
      ∧ ∀ raw, t.kind.value? = some raw → raw = String.ofList text := by
  induction h with
  | done h =>
    rename_i front gap
    rintro t ht
    obtain rfl := List.mem_singleton.mp ht
    have hspan := Token.span_on .endOfInput (front ++ gap) []
    refine ⟨front ++ gap, [], [], ⟨by simpa using hsource, ?_, ?_⟩, rfl, rfl, nofun⟩
    · rw [hspan]
    · rw [hspan]
  | token h htext hkind hvalue hs ih =>
    rename_i front gap text rest kind ts
    refine List.forall_mem_cons.mpr ⟨?_, ih (by simp [hsource])⟩
    have hspan := Token.span_on kind (front ++ gap) text
    refine ⟨front ++ gap, text, rest, ⟨by simp [hsource], ?_, ?_⟩, rfl, rfl, hvalue⟩
    · rw [hspan]
    · rw [hspan]

/-- Each of the spans between tokens is that of trivia. -/
theorem gaps_frames (h : Tiles front rest ts) (hsource : source.toList = front ++ rest) :
    ∀ g ∈ Token.gaps (String.utf8Len front) ts, ∃ before text behind,
      Frames source g before text behind ∧ IsTrivia (behind = []) text := by
  induction h with
  | done h =>
    rename_i front gap
    rw [Token.gaps, Token.gaps, List.forall_mem_singleton, Token.span_on]
    exact ⟨front, gap, [], ⟨by simp [hsource], rfl, by simp⟩, h.mono fun _ => rfl⟩
  | token h htext hkind hvalue hs ih =>
    rename_i front gap text rest kind ts
    rw [Token.gaps, Token.span_on]
    refine List.forall_mem_cons.mpr ⟨?_, ?_⟩
    · exact ⟨front, gap, text ++ rest, ⟨by simp [hsource], rfl, by simp⟩, h.mono False.elim⟩
    · rw [← String.utf8Len_append]
      exact ih (by simp [hsource])

end Tiles

/-! ### The tokens of a text -/

theorem tiles_tokenize (source : String) : Tiles [] source.toList (tokenize source) :=
  tiles_place [] source.toList

/-- The end of the input is the last token of a text, and no other. -/
theorem exists_tokenize_eq_concat (source : String) :
    ∃ ts e, tokenize source = ts ++ [e] ∧ e.kind = .endOfInput
      ∧ e.span = ⟨source.utf8ByteSize, source.utf8ByteSize⟩
      ∧ ∀ t ∈ ts, t.kind ≠ .endOfInput ∧ t.span.start < t.span.stop := by
  obtain ⟨ts, e, heq, hkind, hspan, hts⟩ := (tiles_tokenize source).exists_eq_concat
  exact ⟨ts, e, heq, hkind, by rw [hspan, List.nil_append, String.utf8Len_toList], hts⟩

/-- A token is quoted by what it stands on, and carries it if it has a value. -/
theorem Token.text_eq_slice {source : String} {t : Token} (ht : t ∈ tokenize source) :
    t.text = t.span.slice source ∧ ∀ raw, t.kind.value? = some raw → raw = t.span.slice source := by
  obtain ⟨front, text, rest, hframes, -, htext, hvalue⟩ :=
    (tiles_tokenize source).exists_frames rfl t ht
  rw [hframes.slice_eq]
  exact ⟨htext, hvalue⟩

/-- The tokens of a text end with the end of the input, which stands behind the text and occurs
only there. All others stand on characters of the text, one behind the other, and between them is
trivia, of which only the last may leave a comment open. A token that has a value carries what it
stands on; its line is counted by the line feeds in front of it, and its column by the characters
behind the last of these. -/
theorem tokenize_tiles (source : String) :
    (∃ ts e, tokenize source = ts ++ [e] ∧ e.kind = .endOfInput
        ∧ e.span = ⟨source.utf8ByteSize, source.utf8ByteSize⟩
        ∧ ∀ t ∈ ts, t.kind ≠ .endOfInput ∧ t.span.start < t.span.stop)
      ∧ (tokenize source).Pairwise (fun s t => s.span.stop ≤ t.span.start)
      ∧ (∀ t ∈ tokenize source, t.span.stop ≤ source.utf8ByteSize
          ∧ String.Pos.Raw.IsValid source ⟨t.span.start⟩
          ∧ String.Pos.Raw.IsValid source ⟨t.span.stop⟩)
      ∧ (∀ g ∈ Token.gaps 0 (tokenize source), g.start ≤ g.stop
          ∧ IsTrivia (g.stop = source.utf8ByteSize) (g.slice source).toList)
      ∧ (∀ t ∈ tokenize source, t.text = t.span.slice source
          ∧ ∀ raw, t.kind.value? = some raw → raw = t.span.slice source)
      ∧ ∀ t ∈ tokenize source,
          let front := (Span.slice ⟨0, t.span.start⟩ source).toList
          t.start.line = 1 + front.count '\n'
            ∧ t.start.column = 1 + (front.rtakeWhile fun c => c ≠ '\n').length := by
  have htiles := tiles_tokenize source
  have hsource : source.toList = [] ++ source.toList := rfl
  refine ⟨exists_tokenize_eq_concat source, htiles.pairwise, fun t ht => ?_, fun g hg => ?_,
    fun t => Token.text_eq_slice, fun t ht => ?_⟩
  · obtain ⟨front, text, rest, hframes, -⟩ := htiles.exists_frames hsource t ht
    exact ⟨Nat.le.intro hframes.utf8ByteSize_eq.symm, hframes.isValid_start, hframes.isValid_stop⟩
  · obtain ⟨front, text, rest, hframes, htrivia⟩ := htiles.gaps_frames hsource g hg
    refine ⟨by rw [hframes.start_eq, hframes.stop_eq]; exact Nat.le_add_right _ _, ?_⟩
    rw [hframes.slice_eq, String.toList_ofList]
    refine htrivia.mono fun hrest => ?_
    rw [hframes.utf8ByteSize_eq, hrest]
    rfl
  · obtain ⟨front, text, rest, hframes, hstart, -⟩ := htiles.exists_frames hsource t ht
    rw [hframes.slice_front, hstart, Position.behind_eq]
    exact ⟨rfl, rfl⟩

end NodeQuery
