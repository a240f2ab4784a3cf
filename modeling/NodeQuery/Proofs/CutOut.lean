/-
What the places of a query cut out of the text.

Each query in an accepted text bears the places of its parts. The declaration, the `where` and the
condition can be cut out of the text by these places and read again by themselves.

In the text a nested query may leave a semicolon to the queries around it, and what is cut out is
read up to the end of the input, in front of which semicolons are taken in another way. But a
condition that is cut out does not end with more semicolons than nested queries end with it, and
these are read whoever takes them.

* `Span.IsExcerpt`, `Span.Within`: spans of a text, and spans inside others.
* `Query.CutsOut`: what the places of a query cut out.
* `Token.sameWord_of_tokenize`: reserved words stand on themselves, up to case.
* `Token.isExcerpt_spanOf`: the text on which tokens stand.
* `Parser.StandsIn.cutsOut`: a query that stands among the tokens of a text cuts its parts out.
* `parse_cutsOut`: all queries in an accepted text do.
-/
import NodeQuery.Proofs.Parsing.Places
import NodeQuery.Proofs.Relexing

namespace NodeQuery

/-! ### Places of queries -/

/-- The span holds characters of the source: it starts and stops at characters, and is not
empty. -/
structure Span.IsExcerpt (s : Span) (source : String) : Prop where
  start_lt_stop : s.start < s.stop
  isValid_start : String.Pos.Raw.IsValid source ⟨s.start⟩
  isValid_stop : String.Pos.Raw.IsValid source ⟨s.stop⟩

/-- The first span lies inside the second one. -/
def Span.Within (s t : Span) : Prop :=
  t.start ≤ s.start ∧ s.stop ≤ t.stop

/-- The places that are known of a query. -/
def QuerySpans.toList (spans : QuerySpans) : List Span :=
  spans.entity.toList ++ spans.whereWord.toList ++ spans.condition.toList

/-- The places of a query cut its parts out of a text. The declaration stands on its names. If
there is no place for a `where`, there is none for a condition, which is the placeholder, and no
`where` follows the declaration. Else the `where` and a condition follow, which is read again from
its place and inside which the nested queries stand. -/
inductive Query.CutsOut (source : String) : Query → Prop where
  | plain {e : Entity} {s : Span}
      (hentity : (tokenize (s.slice source)).map Token.kind = e.kinds ++ [.endOfInput])
      (hbehind : ((tokenize (Span.slice ⟨s.stop, source.utf8ByteSize⟩ source)).map
        Token.kind).head? ≠ some .whereWord) :
      CutsOut source ⟨e, .placeholder e, ⟨some s, none, none⟩⟩
  | stated {e : Entity} {c r : Condition} {s w t : Span}
      (hentity : (tokenize (s.slice source)).map Token.kind = e.kinds ++ [.endOfInput])
      (hwhere : Text.sameWord (w.slice source) "where" = true)
      (hcondition : parseCondition (t.slice source) = .ok r)
      (hsame : r.eraseSpans = c.eraseSpans)
      (horder : s.stop ≤ w.start ∧ w.stop ≤ t.start)
      (hnested : ∀ p ∈ c.atomics.filterMap Atomic.query?, ∀ u ∈ p.spans.toList, u.Within t) :
      CutsOut source ⟨e, c, ⟨some s, some w, some t⟩⟩

/-! ### Reserved words -/

namespace Lexeme

theorem sameWord_of_wordKind {w : String} (h : wordKind w ∈ Token.reserved) :
    Text.sameWord w (wordKind w).spelling = true := by
  have hvalue : ∀ kind ∈ Token.reserved, kind.value? = none := by decide
  unfold wordKind Token.keyword? at h ⊢
  split_ifs at h ⊢ with hb
  · cases hvalue _ h
  · cases hf : Token.reserved.find? fun kind => Text.sameWord w kind.spelling with
    | none =>
      rw [hf] at h
      cases hvalue _ h
    | some kind =>
      have hsame := List.find?_some hf
      exact hsame

/-- A reserved word is read from what is the same up to the case of letters. -/
theorem sameWord_of_read {c : Char} {cs : List Char} (h : (read c cs).1 ∈ Token.reserved) :
    Text.sameWord (String.ofList (c :: cs.take (read c cs).2)) (read c cs).1.spelling = true := by
  have hno : ∀ kind ∈ Token.reserved, kind.payload? = none := by decide
  unfold read at h ⊢
  split at h <;> simp only at h ⊢ <;> try exact absurd h (by decide)
  · split_ifs at h ⊢
    · exact absurd h (by decide)
    · cases hno _ h
  · split_ifs at h ⊢
    · exact absurd h (by decide)
    · cases hno _ h
  · split_ifs at h ⊢ <;> cases hno _ h
  · split_ifs at h ⊢
    · split at h <;> cases hno _ h
    · cases hno _ h
    · exact sameWord_of_wordKind h
    · cases hno _ h

end Lexeme

theorem sameWord_of_mem_pieces {cs : List Char} {kind : Token.Kind} {text : List Char}
    (h : .lexeme kind text ∈ pieces cs) (hkind : kind ∈ Token.reserved) :
    Text.sameWord (String.ofList text) kind.spelling = true := by
  induction cs using pieces.induct with
  | case1 =>
    rw [pieces] at h
    cases h
  | case2 c cs n hext ih =>
    rw [pieces_of_trivia hext] at h
    obtain heq | h := List.mem_cons.mp h
    · cases heq
    · exact ih h
  | case3 c cs hext k n hread ih =>
    rw [pieces_of_lexeme hext, hread] at h
    obtain heq | h := List.mem_cons.mp h
    · cases heq
      have hword := @Lexeme.sameWord_of_read c cs (by rwa [hread])
      rwa [hread] at hword
    · exact ih h

/-- A token that is a reserved word stands on this word, up to the case of its letters. -/
theorem Token.sameWord_of_tokenize {source : String} {t : Token} {ts ws : List Token}
    (h : tokenize source = ts ++ t :: ws) (hws : ws ≠ []) (hkind : t.kind ∈ reserved) :
    Text.sameWord (t.span.slice source) t.kind.spelling = true := by
  have ht : t ∈ tokenize source := by simp [h]
  obtain ⟨qs, kind, text, rs, hpieces, -, htoken, -⟩ := exists_piece_of_place h hws
  rw [← (Token.text_eq_slice ht).1]
  subst htoken
  exact sameWord_of_mem_pieces (by rw [hpieces]; simp) hkind

/-! ### Tokens that follow one another -/

namespace Token

variable {source : String} {ts us ws : List Token}

/-- A span of tokens starts with one of them and stops with one of them. -/
theorem exists_mem_spanOf (hne : us ≠ []) :
    (∃ t ∈ us, (spanOf us).start = t.span.start) ∧ ∃ t ∈ us, (spanOf us).stop = t.span.stop := by
  refine ⟨⟨us.head hne, List.head_mem hne, ?_⟩, ⟨us.getLast hne, List.getLast_mem hne, ?_⟩⟩
  · rw [spanOf, List.head?_eq_some_head hne]
    rfl
  · rw [spanOf, List.getLast?_eq_some_getLast hne]
    rfl

section Within

variable (hpair : us.Pairwise fun s t => s.span.stop ≤ t.span.start)
  (hle : ∀ t ∈ us, t.span.start ≤ t.span.stop)

include hpair hle

/-- Each of some tokens stands inside the span of all of them. -/
theorem within_spanOf : ∀ t ∈ us, t.span.Within (spanOf us) := by
  intro t ht
  constructor
  · obtain ⟨first, us, rfl⟩ := List.exists_cons_of_ne_nil (List.ne_nil_of_mem ht)
    show first.span.start ≤ t.span.start
    obtain rfl | hmem := List.mem_cons.mp ht
    · exact le_refl _
    · exact (hle first (List.mem_cons_self ..)).trans ((List.pairwise_cons.mp hpair).1 t hmem)
  · obtain rfl | ⟨us, last, rfl⟩ := List.eq_nil_or_concat us
    · cases ht
    rw [List.concat_eq_append] at *
    have hlast : (spanOf (us ++ [last])).stop = last.span.stop := by
      rw [spanOf, List.getLast?_concat]
      rfl
    rw [hlast]
    obtain hmem | hmem := List.mem_append.mp ht
    · have hbefore := (List.pairwise_append.mp hpair).2.2 t hmem last (List.mem_singleton_self _)
      exact hbefore.trans (hle last (by simp))
    · rw [List.mem_singleton.mp hmem]

/-- Tokens that follow one another stand inside the span of more of them. -/
theorem spanOf_within {vs : List Token} (hvs : vs ⊆ us) (hne : vs ≠ []) :
    (spanOf vs).Within (spanOf us) := by
  obtain ⟨⟨s, hs, hstart⟩, t, ht, hstop⟩ := exists_mem_spanOf hne
  rw [Span.Within, hstart, hstop]
  exact ⟨(within_spanOf hpair hle s (hvs hs)).1, (within_spanOf hpair hle t (hvs ht)).2⟩

end Within

theorem stop_spanOf_le {vs : List Token}
    (hpair : (us ++ vs).Pairwise fun s t => s.span.stop ≤ t.span.start) (hus : us ≠ [])
    (hvs : vs ≠ []) : (spanOf us).stop ≤ (spanOf vs).start := by
  obtain ⟨-, s, hs, hstop⟩ := exists_mem_spanOf hus
  obtain ⟨⟨t, ht, hstart⟩, -⟩ := exists_mem_spanOf hvs
  rw [hstop, hstart]
  exact (List.pairwise_append.mp hpair).2.2 s hs t ht

/-- The text from the first to the last of some tokens, read by itself, has these tokens, and the
text behind it the others. -/
theorem isExcerpt_spanOf (h : tokenize source = ts ++ us ++ ws) (hws : ws ≠ []) (hne : us ≠ []) :
    (spanOf us).IsExcerpt source
      ∧ kinds ((spanOf us).slice source).toList = us.map Token.kind
      ∧ kinds (Span.slice ⟨(spanOf us).stop, source.utf8ByteSize⟩ source).toList ++ [.endOfInput]
        = ws.map Token.kind := by
  obtain ⟨front, text, rest, hframes, hkinds, hrest⟩ := exists_frames_of_tokenize h hws
    (List.head?_eq_some_head hne) (List.getLast?_eq_some_getLast hne)
  have hspan : spanOf us = ⟨(us.head hne).start.offset, (us.getLast hne).stop⟩ := by
    rw [spanOf, List.head?_eq_some_head hne, List.getLast?_eq_some_getLast hne]
    rfl
  rw [← hspan] at hframes
  have hbehind : Frames source ⟨(spanOf us).stop, (spanOf us).stop⟩ (front ++ text) [] rest := by
    refine ⟨by simp [hframes.source_eq], ?_, ?_⟩
    · rw [hframes.stop_eq, String.utf8Len_append]
    · simp [hframes.stop_eq, String.utf8Len_append]
  refine ⟨⟨?_, hframes.isValid_start, hframes.isValid_stop⟩, ?_, ?_⟩
  · have htext : text ≠ [] := by
      rintro rfl
      rw [kinds, pieces] at hkinds
      exact hne (List.map_eq_nil_iff.mp hkinds.symm)
    rw [hframes.start_eq, hframes.stop_eq]
    exact Nat.lt_add_of_pos_right (String.utf8Len_pos htext)
  · rw [hframes.slice_eq, String.toList_ofList, hkinds]
  · rw [hbehind.slice_rest, List.nil_append, hrest]

end Token

/-! ### Queries among the tokens of a text -/

namespace Parser

namespace StandsIn

variable {p : Query} {us rest : List Token}

/-- The places of a query are those of tokens that follow one another. -/
theorem exists_of_mem_spans (h : StandsIn p us rest) : ∀ u ∈ p.spans.toList, ∃ ts vs ws,
    us = ts ++ vs ++ ws ∧ vs ≠ [] ∧ u = Token.spanOf vs := by
  cases h with
  | plain hes hbehind =>
    rename_i e front es behind
    exact List.forall_mem_singleton.mpr ⟨front, es, behind, rfl, ne_nil_of_declaration hes, rfl⟩
  | stated hes hw hn hm hr hcs hnested =>
    rename_i e c front es cs behind w n t m ks
    intro u hu
    rcases List.mem_cons.mp hu with rfl | hu
    · exact ⟨front, es, w :: cs ++ behind, by simp, ne_nil_of_declaration hes, rfl⟩
    rcases List.mem_pair.mp hu with rfl | rfl
    · exact ⟨front ++ es, [w], cs ++ behind, by simp, List.cons_ne_nil _ _, rfl⟩
    · exact ⟨front ++ es ++ [w], cs, behind, by simp, ne_nil_of_reads hr hcs, rfl⟩

theorem within_of_mem_spans (h : StandsIn p us rest)
    (hpair : us.Pairwise fun s t => s.span.stop ≤ t.span.start)
    (hle : ∀ t ∈ us, t.span.start ≤ t.span.stop) :
    ∀ u ∈ p.spans.toList, u.Within (Token.spanOf us) := by
  intro u hu
  obtain ⟨ts, vs, ws, rfl, hne, rfl⟩ := h.exists_of_mem_spans u hu
  exact Token.spanOf_within hpair hle (by simp) hne

section Source

variable {source : String} {final : Token}

theorem isExcerpt_of_mem_spans (h : StandsIn p us rest)
    (hsource : tokenize source = us ++ [final]) :
    ∀ u ∈ p.spans.toList, u.IsExcerpt source := by
  intro u hu
  obtain ⟨ts, vs, ws, rfl, hne, rfl⟩ := h.exists_of_mem_spans u hu
  rw [List.append_assoc] at hsource
  exact (Token.isExcerpt_spanOf hsource (by simp) hne).1

/-- The places of a query that stands among the tokens of a text cut its parts out of the text. -/
theorem cutsOut (h : StandsIn p us []) (hsource : tokenize source = us ++ [final])
    (hfinal : final.kind = .endOfInput) (hlt : ∀ t ∈ us, t.span.start < t.span.stop) :
    p.CutsOut source := by
  cases h with
  | plain hes hbehind =>
    rw [List.append_assoc] at hsource
    obtain ⟨-, hentity, hrest⟩ :=
      Token.isExcerpt_spanOf hsource (by simp) (ne_nil_of_declaration hes)
    refine .plain ?_ ?_
    · rw [map_kind_tokenize, hentity, hes]
    · rw [map_kind_tokenize, hrest]
      rename_i behind
      cases behind with
      | nil => simp [hfinal]
      | cons t behind => simpa using hbehind
  | stated hes hw hn hm hr hcs hnested =>
    rename_i e c front es cs behind w n t m ks
    have hes' := ne_nil_of_declaration hes
    have hcs' := ne_nil_of_reads hr hcs
    obtain ⟨-, hentity, -⟩ := @Token.isExcerpt_spanOf source front es (w :: cs ++ behind ++ [final])
      (by simp [hsource]) (by simp) hes'
    have hwhere := @Token.sameWord_of_tokenize source w (front ++ es) (cs ++ behind ++ [final])
      (by simp [hsource]) (by simp) (by rw [hw]; decide)
    obtain ⟨-, hcondition, -⟩ := @Token.isExcerpt_spanOf source (front ++ es ++ [w]) cs
      (behind ++ [final]) (by simp [hsource]) (by simp) hcs'
    rw [hw] at hwhere
    rw [hcs] at hcondition
    -- one more semicolon could be skipped than the nested queries have
    obtain ⟨r, hread, hsame⟩ := (parseCondition_of_reads hr (Nat.le_succ_of_le hm) hcondition).1 hn
    have hpair : (es ++ [w] ++ cs).Pairwise fun s t => s.span.stop ≤ t.span.start := by
      refine (tiles_tokenize source).pairwise.sublist ?_
      rw [hsource]
      exact List.IsInfix.sublist ⟨front, behind ++ [final], by simp⟩
    have hpairs := List.pairwise_append.mp hpair
    refine .stated ?_ hwhere hread hsame ⟨?_, ?_⟩ fun p hp => ?_
    · rw [map_kind_tokenize, hentity, hes]
    · exact Token.stop_spanOf_le hpairs.1 hes' (List.cons_ne_nil w [])
    · rw [List.append_assoc] at hpair
      exact Token.stop_spanOf_le (List.pairwise_append.mp hpair).2.1 (List.cons_ne_nil w []) hcs'
    · exact (hnested p hp).within_of_mem_spans hpairs.2.1 fun t ht => (hlt t (by simp [ht])).le

end Source

end StandsIn

end Parser

/-- In an accepted text the places of all queries are places of the text and cut the parts of the
queries out of it, and the outermost query has a `where` and a condition. -/
theorem parse_cutsOut {source : String} {q : Query} (h : parse source = .ok q) :
    q.spans.whereWord.isSome = true
      ∧ ∀ p ∈ q.queries, p.CutsOut source ∧ ∀ u ∈ p.spans.toList, u.IsExcerpt source := by
  obtain ⟨-, hwhole⟩ := Parser.run_eq_ok.mp h
  obtain ⟨us, final, hsource, hfinal, -, hus⟩ := exists_tokenize_eq_concat source
  have hbody : Parser.body (tokenize source) = us := by
    rw [hsource, Parser.body_append fun t ht => (hus t ht).1]
    simp [Parser.body, hfinal]
  obtain ⟨hwhere, hstands⟩ := Parser.standsIn_wholeQuery hwhole
  rw [hbody] at hstands
  refine ⟨hwhere, fun p hp => ?_⟩
  have hp := hstands.of_mem_queries p hp
  exact ⟨hp.cutsOut hsource hfinal fun t ht => (hus t ht).2, hp.isExcerpt_of_mem_spans hsource⟩

/-- Semicolons behind two nested queries, a comment, a character of two bytes, and a nested query
without `where`. -/
theorem parse_cutsOut_semicolons :
    let source := "a where and(x contain b WHERE y in c/*é*/where z=='é';;, u in d e);"
    (parse source).toOption.map (fun q => q.queries.map Query.spans)
        = some [⟨some ⟨0, 1⟩, some ⟨2, 7⟩, some ⟨8, 68⟩⟩,
          ⟨some ⟨22, 23⟩, some ⟨24, 29⟩, some ⟨30, 56⟩⟩,
          ⟨some ⟨35, 36⟩, some ⟨42, 47⟩, some ⟨48, 55⟩⟩, ⟨some ⟨64, 67⟩, none, none⟩]
      ∧ ∃ q, parse source = .ok q
        ∧ ∀ p ∈ q.queries, p.CutsOut source ∧ ∀ u ∈ p.spans.toList, u.IsExcerpt source := by
  intro source
  obtain ⟨q, hq⟩ := Except.isOk_iff.mp (by decide +kernel : (parse source).isOk = true)
  exact ⟨by decide +kernel, q, hq, (parse_cutsOut hq).2⟩

end NodeQuery
