/-
Which tokens and texts are read.

Tokens are read as a query, as a condition or as a nested query just when they have no error
among them, follow the grammar and are not nested too deep, and they are read as what the
grammar says. A text is read as its tokens are.

* `Parser.parseTokens_sound`, `Parser.parseTokens_of_reads`: the two directions for queries.
* `Parser.parseConditionTokens_sound`, `Parser.parseConditionTokens_of_reads`: those for
  conditions.
* `Parser.parseNestedTokens_sound`, `Parser.parseNestedTokens_of_reads`: those for nested queries.
* `Parser.parse_sound`, …, `Parser.parseNested_of_reads`: the same for texts.
-/
import NodeQuery.Proofs.Parsing.Completeness

namespace NodeQuery.Parser

open Grammar

/-! ### Errors among tokens -/

theorem lexicalErrors_eq_nil_iff (tokens : List Token) :
    lexicalErrors tokens = [] ↔ ∀ message, .error message ∉ tokens.map Token.kind := by
  rw [lexicalErrors, List.filterMap_eq_nil_iff]
  constructor
  · intro h message hmem
    obtain ⟨t, ht, hkind⟩ := List.mem_map.mp hmem
    have := h t ht
    simp [hkind] at this
  · intro h t ht
    split
    · rename_i message hkind
      exact absurd (List.mem_map.mpr ⟨t, ht, hkind⟩) (h message)
    · rfl

theorem run_eq_ok {α : Type} {whole : Cursor → Except Failure α} {tokens : List Token} {a : α} :
    run whole tokens = .ok a ↔ (∀ message, .error message ∉ tokens.map Token.kind)
      ∧ whole ⟨body tokens, 0⟩ = .ok a := by
  rw [run]
  -- lexical errors come before everything that the parser could say
  split
  · rename_i hnil
    rw [and_iff_right ((lexicalErrors_eq_nil_iff tokens).mp hnil)]
    cases whole ⟨body tokens, 0⟩ <;> simp [Except.mapError]
  · rename_i errors hcons
    simp only [reduceCtorEq, false_iff, not_and]
    intro h
    exact absurd ((lexicalErrors_eq_nil_iff tokens).mpr h) hcons

/-! ### Tokens that are read -/

section Tokens

variable {tokens : List Token} {e : Entity} {c : Condition} {n t m : Nat} {ks : List Token.Kind}

theorem ahead_of_inputEnd {c : Cursor} (h : inputEnd c = .ok ()) : c.ahead = [] := by
  rw [inputEnd] at h
  split_ifs at h with hempty
  rw [Cursor.ahead, List.isEmpty_iff.mp hempty, List.map_nil]

theorem inputEnd_of_ahead {c : Cursor} (h : c.ahead = []) : inputEnd c = .ok () := by
  simp_all [inputEnd, Cursor.ahead]

theorem skipSemicolon_sound (c : Cursor) :
    ∃ m ≤ 1, c.ahead = semicolons m ++ (skipSemicolon c).ahead := by
  rw [skipSemicolon]
  split_ifs with hk
  · exact ⟨1, le_refl 1, Cursor.ahead_eq_cons hk⟩
  · exact ⟨0, Nat.zero_le 1, rfl⟩

theorem skipSemicolon_of_ahead {c : Cursor} {s : Nat} (hs : s ≤ 1) (h : c.ahead = semicolons s) :
    (skipSemicolon c).ahead = [] := by
  obtain rfl | rfl : s = 0 ∨ s = 1 := by omega
  · simp [skipSemicolon, Cursor.peek?_eq, h, semicolons]
  · simp [skipSemicolon, Cursor.peek?_eq, Cursor.ahead_advance, h, semicolons]

/-- Tokens that are read as a query follow the grammar. -/
theorem parseTokens_sound {q : Query} (h : parseTokens tokens = .ok q) :
    ∃ n t m ks, n ≤ maxNesting ∧ m ≤ t ∧ Reads (.condition q.condition.eraseSpans) n t ks
      ∧ (body tokens).map Token.kind
        = q.entity.kinds ++ .whereWord :: (ks ++ semicolons (m + 1)) := by
  obtain ⟨-, h⟩ := run_eq_ok.mp h
  rw [wholeQuery] at h
  obtain ⟨⟨q', c₁⟩, h₁, h⟩ := Except.bind_eq_ok.mp h
  obtain ⟨⟨⟩, hend, h⟩ := Except.bind_eq_ok.mp h
  cases h
  -- the steps of the parser, from the declaration to the last semicolon
  rw [rootQuery] at h₁
  obtain ⟨⟨e, c₂⟩, h₂, h₁⟩ := Except.bind_eq_ok.mp h₁
  obtain ⟨c₃, h₃, h₁⟩ := Except.bind_eq_ok.mp h₁
  obtain ⟨⟨r, c₄⟩, h₄, h₁⟩ := Except.bind_eq_ok.mp h₁
  obtain ⟨c₅, h₅, h₁⟩ := Except.bind_eq_ok.mp h₁
  cases h₁
  obtain ⟨n, t, m, ks, hn, hm, hr, hahead⟩ := condition_sound _ h₄
  refine ⟨n, t, m, ks, hn, hm, hr, (entity_sound h₂).trans ?_⟩
  rw [take_sound h₃, hahead, take_sound h₅, ahead_of_inputEnd hend, semicolons_add]
  simp [semicolons]

/-- Tokens that are read as a condition follow the grammar. -/
theorem parseConditionTokens_sound {r : Condition} (h : parseConditionTokens tokens = .ok r) :
    ∃ n t m ks, n ≤ maxNesting ∧ m ≤ t + 1 ∧ Reads (.condition r.eraseSpans) n t ks
      ∧ (body tokens).map Token.kind = ks ++ semicolons m := by
  obtain ⟨-, h⟩ := run_eq_ok.mp h
  rw [wholeCondition] at h
  obtain ⟨⟨r', c₁⟩, h₁, h⟩ := Except.bind_eq_ok.mp h
  obtain ⟨⟨⟩, hend, h⟩ := Except.bind_eq_ok.mp h
  cases h
  obtain ⟨n, t, m, ks, hn, hm, hr, hahead⟩ := condition_sound _ h₁
  obtain ⟨l, hl, hskip⟩ := skipSemicolon_sound c₁
  refine ⟨n, t, m + l, ks, hn, by omega, hr, hahead.trans ?_⟩
  rw [hskip, ahead_of_inputEnd hend, semicolons_add]
  simp

/-- Tokens that are read as a nested query follow the grammar. -/
theorem parseNestedTokens_sound {q : Query} (h : parseNestedTokens tokens = .ok q) :
    ∃ n t m ks, n ≤ maxNesting + 1 ∧ m ≤ t + 1
      ∧ Reads (.nested q.entity q.condition.eraseSpans) n t ks
      ∧ (body tokens).map Token.kind = ks ++ semicolons m := by
  obtain ⟨-, h⟩ := run_eq_ok.mp h
  rw [wholeNested] at h
  obtain ⟨⟨q', c₁⟩, h₁, h⟩ := Except.bind_eq_ok.mp h
  obtain ⟨⟨⟩, hend, h⟩ := Except.bind_eq_ok.mp h
  cases h
  obtain ⟨n, t, m, ks, hn, hm, hr, hahead⟩ := nestedQuery_sound (condition_sound _) h₁
  obtain ⟨l, hl, hskip⟩ := skipSemicolon_sound c₁
  refine ⟨n, t, m + l, ks, hn, by omega, hr, hahead.trans ?_⟩
  rw [hskip, ahead_of_inputEnd hend, semicolons_add]
  simp

/-- Tokens that follow the grammar are read as a query just when they are not nested too deep. -/
theorem parseTokens_of_reads (herr : ∀ message, .error message ∉ tokens.map Token.kind)
    (hr : Reads (.condition c) n t ks) (hm : m ≤ t)
    (hks : (body tokens).map Token.kind
      = e.kinds ++ .whereWord :: (ks ++ semicolons (m + 1))) :
    (n ≤ maxNesting → ∃ q, parseTokens tokens = .ok q ∧ q.eraseSpans = ⟨e, c, {}⟩)
      ∧ (maxNesting < n → ∀ q, parseTokens tokens ≠ .ok q) := by
  obtain ⟨d₁, hentity, hd₁⟩ := @entity_complete ⟨body tokens, 0⟩ e _ hks (by simp)
  obtain ⟨hwhere, hd₂⟩ := @take_complete .whereWord .whereWord _ _ hd₁
  rw [← List.append_nil (ks ++ semicolons (m + 1))] at hd₂
  constructor
  · intro hn
    obtain ⟨r, d₃, hcondition, herase, hd₃⟩ := read_of_reads hr hn (by simp [Stops]) hd₂
    -- the nested queries that end here leave one semicolon to the query
    have hlast : leftover t (m + 1) [] = 1 := by
      rw [leftover, if_pos rfl]
      omega
    rw [hlast] at hd₃
    obtain ⟨hend, hd₄⟩ := @take_complete .semicolon .queryEnd _ _ hd₃
    obtain ⟨spans, hwhole⟩ :
        ∃ spans, wholeQuery ⟨body tokens, 0⟩ = .ok ⟨e, r, spans⟩ := by
      simp only [wholeQuery, rootQuery, hentity, Except.ok_bind, hwhere, hcondition, hend,
        inputEnd_of_ahead hd₄]
      exact ⟨_, rfl⟩
    refine ⟨⟨e, r, spans⟩, run_eq_ok.mpr ⟨herr, hwhole⟩, ?_⟩
    rw [Query.eraseSpans, herase]
  · intro hn q hq
    obtain ⟨f, hf⟩ := tooDeep_of_reads hr hn (by simp [Stops]) hd₂
    have := (run_eq_ok.mp hq).2
    simp only [wholeQuery, rootQuery, hentity, Except.ok_bind, hwhere, hf,
      Except.error_bind] at this
    cases this

/-- Tokens that follow the grammar of conditions are read as one just when they are not nested
too deep. -/
theorem parseConditionTokens_of_reads (herr : ∀ message, .error message ∉ tokens.map Token.kind)
    (hr : Reads (.condition c) n t ks) (hm : m ≤ t + 1)
    (hks : (body tokens).map Token.kind = ks ++ semicolons m) :
    (n ≤ maxNesting → ∃ r, parseConditionTokens tokens = .ok r ∧ r.eraseSpans = c)
      ∧ (maxNesting < n → ∀ r, parseConditionTokens tokens ≠ .ok r) := by
  have hahead : (Cursor.mk (body tokens) 0).ahead = ks ++ semicolons m ++ [] := by
    rw [List.append_nil]
    exact hks
  constructor
  · intro hn
    obtain ⟨r, d, hcondition, herase, hd⟩ := read_of_reads hr hn (by simp [Stops]) hahead
    -- one semicolon may be left behind, and is skipped
    have hlast : leftover t m [] ≤ 1 := by
      rw [leftover, if_pos rfl]
      omega
    rw [List.append_nil] at hd
    refine ⟨r, run_eq_ok.mpr ⟨herr, ?_⟩, herase⟩
    simp only [wholeCondition, hcondition, Except.ok_bind,
      inputEnd_of_ahead (skipSemicolon_of_ahead hlast hd)]
  · intro hn r hr'
    obtain ⟨f, hf⟩ := tooDeep_of_reads hr hn (by simp [Stops]) hahead
    have := (run_eq_ok.mp hr').2
    simp only [wholeCondition, hf, Except.error_bind] at this
    cases this

/-- Tokens that follow the grammar of nested queries are read as one just when they are not
nested too deep. -/
theorem parseNestedTokens_of_reads (herr : ∀ message, .error message ∉ tokens.map Token.kind)
    (hr : Reads (.nested e c) n t ks) (hm : m ≤ t + 1)
    (hks : (body tokens).map Token.kind = ks ++ semicolons m) :
    (n ≤ maxNesting + 1 → ∃ q, parseNestedTokens tokens = .ok q ∧ q.eraseSpans = ⟨e, c, {}⟩)
      ∧ (maxNesting + 1 < n → ∀ q, parseNestedTokens tokens ≠ .ok q) := by
  have hahead : (Cursor.mk (body tokens) 0).ahead = ks ++ semicolons m ++ [] := by
    rw [List.append_nil]
    exact hks
  constructor
  · intro hn
    obtain ⟨q, d, hnested, herase, hd⟩ := read_of_reads hr hn (by simp [Stops]) hahead
    have hlast : leftover t m [] ≤ 1 := by
      rw [leftover, if_pos rfl]
      omega
    rw [List.append_nil] at hd
    refine ⟨q, run_eq_ok.mpr ⟨herr, ?_⟩, herase⟩
    simp only [wholeNested, hnested, Except.ok_bind,
      inputEnd_of_ahead (skipSemicolon_of_ahead hlast hd)]
  · intro hn q hq
    obtain ⟨f, hf⟩ := tooDeep_of_reads hr hn (by simp [Stops]) hahead
    have := (run_eq_ok.mp hq).2
    simp only [wholeNested, hf, Except.error_bind] at this
    cases this

end Tokens

/-! ### The tokens of a text -/

theorem map_kind_place (p : Position) (ps : List Piece) :
    (place p ps).map Token.kind = ps.filterMap Piece.kind? ++ [.endOfInput] := by
  induction ps generalizing p with
  | nil => rfl
  | cons piece ps ih =>
    cases piece with
    | trivia text => exact ih _
    | lexeme kind text => exact congrArg (kind :: ·) (ih _)

theorem map_kind_tokenize (source : String) :
    (tokenize source).map Token.kind = kinds source.toList ++ [.endOfInput] :=
  map_kind_place _ _

/-- The kinds in front of the end of the input, if it stands nowhere else. -/
theorem map_kind_body {tokens : List Token} {ks : List Token.Kind}
    (h : tokens.map Token.kind = ks ++ [.endOfInput]) (hks : .endOfInput ∉ ks) :
    (body tokens).map Token.kind = ks := by
  have hpred : (fun t : Token => decide (t.kind ≠ .endOfInput))
      = (fun k : Token.Kind => decide (k ≠ .endOfInput)) ∘ Token.kind := rfl
  have hall : ∀ k ∈ ks, decide (k ≠ Token.Kind.endOfInput) = true := by
    intro k hk
    have hne : k ≠ .endOfInput := fun h => hks (h ▸ hk)
    exact decide_eq_true hne
  rw [body, hpred, ← List.takeWhile_map, h, List.takeWhile_append_of_pos hall]
  simp

theorem body_append {qs : List Token} (h : ∀ t ∈ qs, t.kind ≠ .endOfInput) (ts : List Token) :
    body (qs ++ ts) = qs ++ body ts := by
  rw [body, List.takeWhile_append_of_pos (by simpa using h), ← body]

theorem map_kind_body_tokenize (source : String) :
    (body (tokenize source)).map Token.kind = kinds source.toList :=
  map_kind_body (map_kind_tokenize source) (endOfInput_not_mem_kinds _)

theorem error_not_mem_map_kind {tokens : List Token} {ks : List Token.Kind}
    (h : tokens.map Token.kind = ks ++ [.endOfInput]) (herr : ∀ message, .error message ∉ ks)
    (message : String) : .error message ∉ tokens.map Token.kind := by
  rw [h]
  simp [herr]

theorem error_not_mem_of_run_eq_ok {α : Type} {whole : Cursor → Except Failure α}
    {source : String} {a : α} (h : run whole (tokenize source) = .ok a) (message : String) :
    .error message ∉ kinds source.toList := by
  have := (run_eq_ok.mp h).1 message
  rw [map_kind_tokenize] at this
  exact fun hmem => this (List.mem_append_left _ hmem)

/-! ### Texts that are read -/

section Texts

variable {source : String} {e : Entity} {c : Condition} {n t m : Nat} {ks : List Token.Kind}

/-- A text that is read as a query follows the grammar. -/
theorem parse_sound {q : Query} (h : parse source = .ok q) :
    ∃ n t m ks, n ≤ maxNesting ∧ m ≤ t ∧ Reads (.condition q.condition.eraseSpans) n t ks
      ∧ kinds source.toList = q.entity.kinds ++ .whereWord :: (ks ++ semicolons (m + 1)) := by
  rw [← map_kind_body_tokenize]
  exact parseTokens_sound h

/-- A text that is read as a condition follows the grammar. -/
theorem parseCondition_sound {r : Condition} (h : parseCondition source = .ok r) :
    ∃ n t m ks, n ≤ maxNesting ∧ m ≤ t + 1 ∧ Reads (.condition r.eraseSpans) n t ks
      ∧ kinds source.toList = ks ++ semicolons m := by
  rw [← map_kind_body_tokenize]
  exact parseConditionTokens_sound h

/-- A text that is read as a nested query follows the grammar. -/
theorem parseNested_sound {q : Query} (h : parseNested source = .ok q) :
    ∃ n t m ks, n ≤ maxNesting + 1 ∧ m ≤ t + 1
      ∧ Reads (.nested q.entity q.condition.eraseSpans) n t ks
      ∧ kinds source.toList = ks ++ semicolons m := by
  rw [← map_kind_body_tokenize]
  exact parseNestedTokens_sound h

/-- A text that follows the grammar is read as a query just when it is not nested too deep. -/
theorem parse_of_reads (hr : Reads (.condition c) n t ks) (hm : m ≤ t)
    (hks : kinds source.toList = e.kinds ++ .whereWord :: (ks ++ semicolons (m + 1))) :
    (n ≤ maxNesting → ∃ q, parse source = .ok q ∧ q.eraseSpans = ⟨e, c, {}⟩)
      ∧ (maxNesting < n → ∀ q, parse source ≠ .ok q) := by
  have herr : ∀ message, .error message ∉ kinds source.toList := by
    intro message
    rw [hks]
    simp [hr.error_not_mem, semicolons, Entity.error_not_mem_kinds]
  exact parseTokens_of_reads (error_not_mem_map_kind (map_kind_tokenize source) herr) hr hm
    ((map_kind_body_tokenize source).trans hks)

/-- A text that follows the grammar of conditions is read as one just when it is not nested too
deep. -/
theorem parseCondition_of_reads (hr : Reads (.condition c) n t ks) (hm : m ≤ t + 1)
    (hks : kinds source.toList = ks ++ semicolons m) :
    (n ≤ maxNesting → ∃ r, parseCondition source = .ok r ∧ r.eraseSpans = c)
      ∧ (maxNesting < n → ∀ r, parseCondition source ≠ .ok r) := by
  have herr : ∀ message, .error message ∉ kinds source.toList := by
    intro message
    rw [hks]
    simp [hr.error_not_mem, semicolons]
  exact parseConditionTokens_of_reads (error_not_mem_map_kind (map_kind_tokenize source) herr) hr
    hm ((map_kind_body_tokenize source).trans hks)

/-- A text that follows the grammar of nested queries is read as one just when it is not nested
too deep. -/
theorem parseNested_of_reads (hr : Reads (.nested e c) n t ks) (hm : m ≤ t + 1)
    (hks : kinds source.toList = ks ++ semicolons m) :
    (n ≤ maxNesting + 1 → ∃ q, parseNested source = .ok q ∧ q.eraseSpans = ⟨e, c, {}⟩)
      ∧ (maxNesting + 1 < n → ∀ q, parseNested source ≠ .ok q) := by
  have herr : ∀ message, .error message ∉ kinds source.toList := by
    intro message
    rw [hks]
    simp [hr.error_not_mem, semicolons]
  exact parseNestedTokens_of_reads (error_not_mem_map_kind (map_kind_tokenize source) herr) hr hm
    ((map_kind_body_tokenize source).trans hks)

end Texts

end NodeQuery.Parser
