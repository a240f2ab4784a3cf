/-
The grammar as it is written down, and the parser.

In the grammar each nested query may be followed by a semicolon of its own, and so may a
condition or a nested query that stands by itself. Of the semicolons behind several nested
queries that end at the same place the grammar does not say whose they are; the parser says so
by looking one token ahead. That makes no difference: the parser accepts what the grammar
derives, as far as conditions are not nested too deep, and a derivation is known from its tokens
but for the owners of semicolons.

* `Grammar.Derives`: the productions, with the depth to which conditions are nested.
* `Grammar.DerivesQuery`, `Grammar.DerivesAlone`: what the parser may be asked to read.
* `Grammar.Derives.counted`, `Grammar.Reads.derived`: the grammar in which trailing semicolons
  are counted, and not owned, derives the same.
* `Grammar.DerivesAlone.unique`: the tree and its depth are determined by the tokens.
* `parseTokens_iff_derives`: the parser accepts its grammar.
-/
import NodeQuery.Proofs.Parsing

namespace NodeQuery

namespace Grammar

/-! ### The productions -/

/-- `Derives p n ks`: the tokens `ks` are derived from the phrase `p`, in which conditions are
nested `n` deep. A semicolon that may be missing is written as `semicolons m` with `m ≤ 1`. -/
inductive Derives : Phrase → Nat → List Token.Kind → Prop where
  | bare (a : Attribute) : Derives (.condition (.value ⟨a, .equal, "true"⟩)) 1 a.kinds
  | value {k : Token.Kind} {v : String} (a : Attribute) (op : ValueOp) (hk : k.value? = some v) :
      Derives (.condition (.value ⟨a, op, v⟩)) 1 (a.kinds ++ [.valueOp op, k])
  | relation {e : Entity} {c : Condition} {n : Nat} {ks : List Token.Kind} (a : Attribute)
      (op : RelOp) (h : Derives (.nested e c) n ks) :
      Derives (.condition (.relation a op e c {})) (n + 1) (a.kinds ++ .relOp op :: ks)
  | negation {c : Condition} {n : Nat} {ks : List Token.Kind} (h : Derives (.condition c) n ks) :
      Derives (.condition (.negation c)) (n + 1) (.notWord :: .opening :: (ks ++ [.closing]))
  | group {c d : Condition} {cs : List Condition} {n : Nat} {ks : List Token.Kind}
      (k : Connective) (h : Derives (.members (c :: d :: cs)) n ks) :
      Derives (.condition (.group k (c :: d :: cs))) (n + 1)
        (.connective k :: .opening :: (ks ++ [.closing]))
  | last {c : Condition} {n : Nat} {ks : List Token.Kind} (h : Derives (.condition c) n ks) :
      Derives (.members [c]) n ks
  | more {c d : Condition} {cs : List Condition} {n l : Nat} {ks ls : List Token.Kind}
      (h : Derives (.condition c) n ks) (hs : Derives (.members (d :: cs)) l ls) :
      Derives (.members (c :: d :: cs)) (max n l) (ks ++ .comma :: ls)
  | plain {m : Nat} (e : Entity) (hm : m ≤ 1) :
      Derives (.nested e (.placeholder e)) 0 (e.kinds ++ semicolons m)
  | stated {c : Condition} {n m : Nat} {ks : List Token.Kind} (e : Entity)
      (h : Derives (.condition c) n ks) (hm : m ≤ 1) :
      Derives (.nested e c) n (e.kinds ++ .whereWord :: (ks ++ semicolons m))

/-- An outermost query on `e` with the condition `c`. -/
def DerivesQuery (e : Entity) (c : Condition) (n : Nat) (ks : List Token.Kind) : Prop :=
  ∃ ls, Derives (.condition c) n ls ∧ ks = e.kinds ++ .whereWord :: (ls ++ [.semicolon])

/-- A phrase by itself, perhaps with a semicolon behind it. -/
def DerivesAlone (p : Phrase) (n : Nat) (ks : List Token.Kind) : Prop :=
  ∃ ls, ∃ m ≤ 1, Derives p n ls ∧ ks = ls ++ semicolons m

/-! ### Semicolons that are counted -/

/-- What is known of derived tokens if the semicolons at their end are counted. The level of the
leaf in which a nested query stands is counted as one of the nested query. -/
def Counted (n : Nat) (ks : List Token.Kind) : Phrase → Prop
  | .condition c => ∃ t m ls, m ≤ t ∧ Reads (.condition c) n t ls ∧ ks = ls ++ semicolons m
  | .members cs => Reads (.members cs) n 0 ks
  | .nested e c => ∃ t m ls, m ≤ t ∧ Reads (.nested e c) (n + 1) t ls ∧ ks = ls ++ semicolons m

theorem Derives.counted {p : Phrase} {n : Nat} {ks : List Token.Kind} (h : Derives p n ks) :
    Counted n ks p := by
  induction h with
  | bare a => exact ⟨0, 0, _, le_refl 0, .bare a, (List.append_nil _).symm⟩
  | value a op hk => exact ⟨0, 0, _, le_refl 0, .value a op hk, (List.append_nil _).symm⟩
  | relation a op h ih =>
    obtain ⟨t, m, ls, hm, hr, rfl⟩ := ih
    exact ⟨t, m, _, hm, .relation a op hr, by simp⟩
  | negation h ih =>
    obtain ⟨t, m, ls, hm, hr, rfl⟩ := ih
    exact ⟨0, 0, _, le_refl 0, .negation hr hm, (List.append_nil _).symm⟩
  | group k h ih => exact ⟨0, 0, _, le_refl 0, .group k ih, (List.append_nil _).symm⟩
  | last h ih =>
    obtain ⟨t, m, ls, hm, hr, rfl⟩ := ih
    exact .last hr hm
  | more h hs ih ihs =>
    obtain ⟨t, m, ls, hm, hr, rfl⟩ := ih
    exact .more hr hm ihs
  | plain e hm => exact ⟨1, _, _, hm, .plain e, rfl⟩
  | stated e h hm ih =>
    -- the semicolon of the query joins those of the queries that end with it
    obtain ⟨t, l, ls, hl, hr, rfl⟩ := ih
    refine ⟨t + 1, l + _, _, Nat.add_le_add hl hm, .stated e hr, ?_⟩
    simp [Parser.semicolons_add]

/-- What the counted semicolons of a phrase are derived as. -/
def Derived (n t : Nat) (ks : List Token.Kind) : Phrase → Prop
  | .condition c => ∀ m ≤ t, Derives (.condition c) n (ks ++ semicolons m)
  | .members cs => Derives (.members cs) n ks
  | .nested e c => ∀ m ≤ t, Derives (.nested e c) (n - 1) (ks ++ semicolons m)

theorem Reads.derived {p : Phrase} {n t : Nat} {ks : List Token.Kind} (h : Reads p n t ks) :
    Derived n t ks p := by
  induction h with
  | value a op hk =>
    intro m hm
    obtain rfl : m = 0 := by omega
    simpa [semicolons] using Derives.value a op hk
  | bare a =>
    intro m hm
    obtain rfl : m = 0 := by omega
    simpa [semicolons] using Derives.bare a
  | relation a op h ih =>
    intro m hm
    have := Derives.relation a op (ih m hm)
    rw [Nat.sub_add_cancel h.one_le] at this
    simpa using this
  | negation h hm ih =>
    intro m hm'
    obtain rfl : m = 0 := by omega
    simpa [semicolons] using Derives.negation (ih _ hm)
  | group k h ih =>
    intro m hm
    obtain rfl : m = 0 := by omega
    simpa [semicolons] using Derives.group k ih
  | last h hm ih => exact Derives.last (ih _ hm)
  | more h hm hs ih ihs => exact Derives.more (ih _ hm) ihs
  | plain e => exact fun m hm => Derives.plain e hm
  | stated e h ih =>
    intro m hm
    -- the last semicolon, if there is one, is taken for that of the query
    cases m with
    | zero => simpa [semicolons] using Derives.stated e (ih 0 (Nat.zero_le _)) (Nat.zero_le 1)
    | succ m =>
      have := Derives.stated e (ih m (Nat.le_of_succ_le_succ hm)) (le_refl 1)
      rw [List.append_assoc, ← Parser.semicolons_add] at this
      simpa using this

section Counting

variable {e : Entity} {c : Condition} {n : Nat} {ks : List Token.Kind}

theorem derivesAlone_condition_iff : DerivesAlone (.condition c) n ks
    ↔ ∃ t m ls, m ≤ t + 1 ∧ Reads (.condition c) n t ls ∧ ks = ls ++ semicolons m := by
  constructor
  · rintro ⟨ls, l, hl, h, rfl⟩
    obtain ⟨t, m, is, hm, hr, rfl⟩ := h.counted
    exact ⟨t, m + l, is, by omega, hr, by rw [List.append_assoc, Parser.semicolons_add]⟩
  · rintro ⟨t, m, ls, hm, hr, rfl⟩
    refine ⟨ls ++ semicolons (min m t), m - min m t, by omega, hr.derived _ (by omega), ?_⟩
    rw [List.append_assoc, ← Parser.semicolons_add, Nat.add_sub_cancel' (by omega)]

theorem derivesAlone_nested_iff : DerivesAlone (.nested e c) n ks
    ↔ ∃ t m ls, m ≤ t + 1 ∧ Reads (.nested e c) (n + 1) t ls ∧ ks = ls ++ semicolons m := by
  constructor
  · rintro ⟨ls, l, hl, h, rfl⟩
    obtain ⟨t, m, is, hm, hr, rfl⟩ := h.counted
    exact ⟨t, m + l, is, by omega, hr, by rw [List.append_assoc, Parser.semicolons_add]⟩
  · rintro ⟨t, m, ls, hm, hr, rfl⟩
    refine ⟨ls ++ semicolons (min m t), m - min m t, by omega, hr.derived _ (by omega), ?_⟩
    rw [List.append_assoc, ← Parser.semicolons_add, Nat.add_sub_cancel' (by omega)]

theorem derivesQuery_iff : DerivesQuery e c n ks
    ↔ ∃ t m ls, m ≤ t ∧ Reads (.condition c) n t ls
      ∧ ks = e.kinds ++ .whereWord :: (ls ++ semicolons (m + 1)) := by
  constructor
  · rintro ⟨ls, h, rfl⟩
    obtain ⟨t, m, is, hm, hr, rfl⟩ := h.counted
    exact ⟨t, m, is, hm, hr, by rw [semicolons_succ, List.append_assoc]⟩
  · rintro ⟨t, m, ls, hm, hr, rfl⟩
    exact ⟨_, hr.derived m hm, by rw [semicolons_succ, List.append_assoc]⟩

end Counting

/-! ### One tree for each sequence of tokens -/

theorem exists_cursor (ks : List Token.Kind) : ∃ cur : Parser.Cursor, cur.ahead = ks :=
  ⟨⟨Parser.tokensOf ks, 0⟩, Parser.map_kind_tokensOf ks⟩

section Unique

variable {c c' : Condition} {n n' t t' m m' : Nat} {ls ls' : List Token.Kind}

/-- Two readings of the same tokens are nested equally deep, since the parser succeeds just
where it may go as deep as that. -/
theorem Reads.nesting_le (h : Reads (.condition c) n t ls) (h' : Reads (.condition c') n' t' ls')
    (heq : ls ++ semicolons m = ls' ++ semicolons m') : n ≤ n' := by
  by_contra hlt
  obtain ⟨cur, hcur⟩ := exists_cursor (ls ++ semicolons m ++ [])
  obtain ⟨f, hf⟩ := Parser.tooDeep_of_reads h (not_le.mp hlt) (by simp [Parser.Stops]) hcur
  rw [heq] at hcur
  obtain ⟨r, d, hr, -⟩ := Parser.read_of_reads h' (le_refl n') (by simp [Parser.Stops]) hcur
  rw [hf] at hr
  cases hr

theorem Reads.condition_unique (h : Reads (.condition c) n t ls)
    (h' : Reads (.condition c') n' t' ls')
    (heq : ls ++ semicolons m = ls' ++ semicolons m') : c = c' ∧ n = n' := by
  obtain rfl : n = n' := le_antisymm (h.nesting_le h' heq) (h'.nesting_le h heq.symm)
  refine ⟨?_, rfl⟩
  obtain ⟨cur, hcur⟩ := exists_cursor (ls ++ semicolons m ++ [])
  obtain ⟨r, d, hr, hc, -⟩ := Parser.read_of_reads h (le_refl n) (by simp [Parser.Stops]) hcur
  rw [heq] at hcur
  obtain ⟨r', d', hr', hc', -⟩ := Parser.read_of_reads h' (le_refl n) (by simp [Parser.Stops]) hcur
  rw [hr] at hr'
  cases hr'
  rw [← hc, hc']

end Unique

namespace DerivesAlone

variable {e e' : Entity} {c c' : Condition} {n n' : Nat} {ks : List Token.Kind}

/-- The condition that tokens are derived from, and its depth, are determined by the tokens. -/
theorem unique (h : DerivesAlone (.condition c) n ks) (h' : DerivesAlone (.condition c') n' ks) :
    c = c' ∧ n = n' := by
  obtain ⟨t, m, ls, -, hr, rfl⟩ := derivesAlone_condition_iff.mp h
  obtain ⟨t', m', ls', -, hr', heq⟩ := derivesAlone_condition_iff.mp h'
  exact hr.condition_unique hr' heq

theorem nested_unique (h : DerivesAlone (.nested e c) n ks)
    (h' : DerivesAlone (.nested e' c') n' ks) : e = e' ∧ c = c' ∧ n = n' := by
  -- a nested query is known from the relation that it makes with any attribute
  have hrelation : ∀ {e c n}, DerivesAlone (.nested e c) n ks →
      DerivesAlone (.condition (.relation ⟨"", []⟩ .inside e c {})) (n + 1)
        (Attribute.kinds ⟨"", []⟩ ++ .relOp .inside :: ks) := by
    rintro e c n ⟨ls, m, hm, hd, rfl⟩
    exact ⟨_, m, hm, .relation _ _ hd, by simp⟩
  obtain ⟨hc, hn⟩ := (hrelation h).unique (hrelation h')
  obtain ⟨-, -, he, hc, -⟩ := Condition.relation.inj hc
  exact ⟨he, hc, Nat.succ.inj hn⟩

end DerivesAlone

theorem DerivesQuery.derivesAlone {e : Entity} {c : Condition} {n : Nat} {ks : List Token.Kind}
    (h : DerivesQuery e c n ks) : DerivesAlone (.nested e c) n ks := by
  obtain ⟨ls, hd, rfl⟩ := h
  exact ⟨_, 0, Nat.zero_le 1, .stated e hd (le_refl 1), by simp [semicolons]⟩

end Grammar

/-! ### The parser accepts its grammar -/

open Grammar

/-- Tokens without errors, of which the last and only the last is the end of the input, are read
as a query, as a condition or as a nested query just when the grammar derives them from it with
conditions nested at most 256 deep; and the tree and its depth are the same in all derivations. -/
theorem parseTokens_iff_derives {tokens : List Token} {ks : List Token.Kind}
    (htokens : tokens.map Token.kind = ks ++ [.endOfInput]) (hend : .endOfInput ∉ ks)
    (herr : ∀ message, .error message ∉ ks) :
    (∀ e c, (∃ q, parseTokens tokens = .ok q ∧ q.eraseSpans = ⟨e, c, {}⟩)
        ↔ ∃ n ≤ Parser.maxNesting, DerivesQuery e c n ks)
      ∧ (∀ c, (∃ r, parseConditionTokens tokens = .ok r ∧ r.eraseSpans = c)
        ↔ ∃ n ≤ Parser.maxNesting, DerivesAlone (.condition c) n ks)
      ∧ (∀ e c, (∃ q, parseNestedTokens tokens = .ok q ∧ q.eraseSpans = ⟨e, c, {}⟩)
        ↔ ∃ n ≤ Parser.maxNesting, DerivesAlone (.nested e c) n ks)
      ∧ (∀ e c n e' c' n', DerivesQuery e c n ks → DerivesQuery e' c' n' ks →
        e = e' ∧ c = c' ∧ n = n')
      ∧ (∀ c n c' n', DerivesAlone (.condition c) n ks → DerivesAlone (.condition c') n' ks →
        c = c' ∧ n = n')
      ∧ ∀ e c n e' c' n', DerivesAlone (.nested e c) n ks → DerivesAlone (.nested e' c') n' ks →
        e = e' ∧ c = c' ∧ n = n' := by
  have hbody := Parser.map_kind_body htokens hend
  have herrors := Parser.error_not_mem_map_kind htokens herr
  refine ⟨fun e c => ⟨?_, ?_⟩, fun c => ⟨?_, ?_⟩, fun e c => ⟨?_, ?_⟩, ?_, ?_, ?_⟩
  · rintro ⟨q, hq, herase⟩
    obtain ⟨he, hc, -⟩ := Query.mk.inj herase
    obtain ⟨n, t, m, ls, hn, hm, hr, hls⟩ := Parser.parseTokens_sound hq
    rw [he, hbody] at hls
    rw [hc] at hr
    exact ⟨n, hn, derivesQuery_iff.mpr ⟨t, m, ls, hm, hr, hls⟩⟩
  · rintro ⟨n, hn, h⟩
    obtain ⟨t, m, ls, hm, hr, hls⟩ := derivesQuery_iff.mp h
    exact (Parser.parseTokens_of_reads herrors hr hm (hbody.trans hls)).1 hn
  · rintro ⟨r, hr', rfl⟩
    obtain ⟨n, t, m, ls, hn, hm, hr, hls⟩ := Parser.parseConditionTokens_sound hr'
    rw [hbody] at hls
    exact ⟨n, hn, derivesAlone_condition_iff.mpr ⟨t, m, ls, hm, hr, hls⟩⟩
  · rintro ⟨n, hn, h⟩
    obtain ⟨t, m, ls, hm, hr, hls⟩ := derivesAlone_condition_iff.mp h
    exact (Parser.parseConditionTokens_of_reads herrors hr hm (hbody.trans hls)).1 hn
  · rintro ⟨q, hq, herase⟩
    obtain ⟨he, hc, -⟩ := Query.mk.inj herase
    obtain ⟨n, t, m, ls, hn, hm, hr, hls⟩ := Parser.parseNestedTokens_sound hq
    rw [hbody] at hls
    rw [he, hc] at hr
    -- the leaf that is missing here is counted as a level
    obtain ⟨n, rfl⟩ : ∃ l, n = l + 1 := ⟨n - 1, (Nat.sub_add_cancel hr.one_le).symm⟩
    exact ⟨n, Nat.le_of_succ_le_succ hn, derivesAlone_nested_iff.mpr ⟨t, m, ls, hm, hr, hls⟩⟩
  · rintro ⟨n, hn, h⟩
    obtain ⟨t, m, ls, hm, hr, hls⟩ := derivesAlone_nested_iff.mp h
    exact (Parser.parseNestedTokens_of_reads herrors hr hm (hbody.trans hls)).1
      (Nat.succ_le_succ hn)
  · exact fun e c n e' c' n' h h' => h.derivesAlone.nested_unique h'.derivesAlone
  · exact fun c n c' n' h h' => h.unique h'
  · exact fun e c n e' c' n' h h' => h.nested_unique h'

/-- A query in which both the nested query and the outermost one have their semicolons. -/
theorem parseTokens_iff_derives_semicolons :
    let tokens := tokenize "a x where x.k contain b y where y.p ; ;"
    let c : Condition := .relation ⟨"x", ["k"]⟩ .contains ⟨"b", some "y"⟩
      (.value ⟨⟨"y", ["p"]⟩, .equal, "true"⟩) {}
    ∃ q, parseTokens tokens = .ok q ∧ q.eraseSpans = ⟨⟨"a", some "x"⟩, c, {}⟩ := by
  intro tokens c
  have hderives : Derives (.condition c) 2 _ :=
    .relation _ _ (.stated ⟨"b", some "y"⟩ (.bare ⟨"y", ["p"]⟩) (le_refl 1))
  have htokens : tokens.map Token.kind = (Entity.kinds ⟨"a", some "x"⟩ ++ .whereWord ::
      (Attribute.kinds ⟨"x", ["k"]⟩ ++ .relOp .contains :: (Entity.kinds ⟨"b", some "y"⟩ ++
        .whereWord :: (Attribute.kinds ⟨"y", ["p"]⟩ ++ semicolons 1)) ++ [.semicolon]))
      ++ [.endOfInput] := by
    decide +kernel
  refine ((parseTokens_iff_derives htokens (by decide) ?_).1 _ c).mpr
    ⟨2, by decide, _, hderives, rfl⟩
  simp [Attribute.kinds, Entity.kinds, semicolons]

end NodeQuery
