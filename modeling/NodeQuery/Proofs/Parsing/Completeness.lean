/-
What follows the grammar is read, if it is not nested too deep.

A phrase is read together with some of the semicolons behind it: each nested query that ends
with the phrase takes one, unless it is the last token. What else stands behind a phrase is a
comma, a closing bracket, or nothing.

* `Parser.leftover`: the number of semicolons that are not taken.
* `Parser.read_of_reads`: a phrase is read where conditions may be nested as deep as in it.
* `Parser.tooDeep_of_reads`: it is not read where they may not.
-/
import NodeQuery.Proofs.Parsing.Soundness

namespace NodeQuery.Parser

open Grammar

/-! ### What follows the grammar is read -/

theorem take_complete {kind : Token.Kind} {what : Expectation} {c : Cursor}
    {ks : List Token.Kind} (h : c.ahead = kind :: ks) :
    take kind what c = .ok c.advance ∧ c.advance.ahead = ks := by
  simp [take, Cursor.peek?_eq, Cursor.ahead_advance, h]

theorem identifier_complete {what : Expectation} {c : Cursor} {name : String}
    {ks : List Token.Kind} (h : c.ahead = .identifier name :: ks) :
    identifier what c = .ok (name, c.advance) ∧ c.advance.ahead = ks := by
  simp [identifier, Cursor.peek?_eq, Cursor.ahead_advance, h]

theorem entity_complete {c : Cursor} {e : Entity} {ks : List Token.Kind}
    (h : c.ahead = e.kinds ++ ks) (hks : ∀ name, ks.head? ≠ some (.identifier name)) :
    ∃ d, entity c = .ok (e, d) ∧ d.ahead = ks := by
  obtain ⟨nodeType, alias?⟩ := e
  obtain ⟨h₁, hahead⟩ := @identifier_complete .nodeType c nodeType _ h
  -- what follows must not be taken for an alias
  cases alias? with
  | none =>
    refine ⟨c.advance, ?_, hahead⟩
    rw [entity, h₁, Except.ok_bind]
    simp only [Cursor.peek?_eq, hahead, Option.toList_none, List.map_nil]
    split
    · rename_i name hk
      exact absurd hk (hks name)
    · rfl
  | some name =>
    refine ⟨c.advance.advance, ?_, ?_⟩
    · rw [entity, h₁, Except.ok_bind]
      simp [Cursor.peek?_eq, hahead]
    · simp [Cursor.ahead_advance c.advance, hahead]

theorem properties_complete {c : Cursor} {ps : List String} {ks : List Token.Kind} {fuel : Nat}
    (h : c.ahead = (ps.flatMap fun p => [.dot, .identifier p]) ++ ks)
    (hks : ks.head? ≠ some .dot) (hfuel : ps.length ≤ fuel) :
    ∃ d, properties fuel c = .ok (ps, d) ∧ d.ahead = ks := by
  induction ps generalizing c fuel with
  | nil =>
    refine ⟨c, ?_, h⟩
    rw [List.flatMap_nil, List.nil_append] at h
    cases fuel with
    | zero => rfl
    | succ fuel => rw [properties, Cursor.peek?_eq, h, if_neg hks]
  | cons p ps ih =>
    cases fuel with
    | zero => simp at hfuel
    | succ fuel =>
      have hdot : c.peek? = some .dot := by
        simp [Cursor.peek?_eq, h]
      have hname : c.advance.ahead
          = .identifier p :: ((ps.flatMap fun p => [.dot, .identifier p]) ++ ks) := by
        simp [Cursor.ahead_advance, h]
      obtain ⟨h₁, hahead⟩ := @identifier_complete .property _ _ _ hname
      obtain ⟨d, h₂, hd⟩ := ih hahead (Nat.le_of_succ_le_succ hfuel)
      refine ⟨d, ?_, hd⟩
      simp only [properties, if_pos hdot, h₁, Except.ok_bind, h₂]

theorem subject_complete {c : Cursor} {a : Attribute} {ks : List Token.Kind}
    (h : c.ahead = a.kinds ++ ks) (hks : ks.head? ≠ some .dot) :
    ∃ d, subject c = .ok (a, d) ∧ d.ahead = ks := by
  obtain ⟨name, ps⟩ := a
  obtain ⟨h₁, hahead⟩ := @identifier_complete .subject c name _ h
  -- each property takes two tokens, so the tokens ahead are fuel enough
  have hfuel : ps.length ≤ c.advance.rest.length := by
    have hle : ∀ qs : List String,
        qs.length ≤ (qs.flatMap fun p => [Token.Kind.dot, .identifier p]).length := by
      intro qs
      induction qs with
      | nil => exact le_refl 0
      | cons q qs ih =>
        simp only [List.flatMap_cons, List.length_append, List.length_cons, List.length_nil]
        omega
    have hlen : c.advance.ahead.length = c.advance.rest.length := List.length_map ..
    rw [← hlen, hahead]
    exact (hle ps).trans (List.length_append ▸ Nat.le_add_right ..)
  obtain ⟨d, h₂, hd⟩ := properties_complete hahead hks hfuel
  refine ⟨d, ?_, hd⟩
  simp only [subject, h₁, Except.ok_bind, h₂]

theorem value_complete {c : Cursor} {k : Token.Kind} {v : String} {ks : List Token.Kind}
    (hk : k.value? = some v) (h : c.ahead = k :: ks) :
    value c = .ok (v, c.advance) ∧ c.advance.ahead = ks := by
  simp [value, Cursor.peek?_eq, Cursor.ahead_advance, h, hk]

/-- The tokens at which a condition and the semicolons behind it end. -/
def Stops (rest : List Token.Kind) : Prop :=
  ∀ k ∈ rest.head?, k = .comma ∨ k = .closing

/-- The number of semicolons that are left of `s` in front of `rest` if each of `t` nested
queries takes one, but not the last token. -/
def leftover (t s : Nat) (rest : List Token.Kind) : Nat :=
  s - min t (if rest = [] then s - 1 else s)

theorem head?_semicolons_append {rest : List Token.Kind} (hrest : Stops rest) {s : Nat}
    {k : Token.Kind} (hk : (semicolons s ++ rest).head? = some k) :
    k = .semicolon ∨ k = .comma ∨ k = .closing := by
  cases s with
  | zero => exact .inr (hrest k hk)
  | succ s =>
    simp [semicolons, List.replicate_succ] at hk
    exact .inl hk.symm

theorem nestedEnd_complete {c : Cursor} {s : Nat} {rest : List Token.Kind} (hrest : Stops rest)
    (h : c.ahead = semicolons s ++ rest) :
    (nestedEnd c).ahead = semicolons (leftover 1 s rest) ++ rest := by
  cases s with
  | zero =>
    have hpeek : c.peek? ≠ some .semicolon := by
      rw [Cursor.peek?_eq, h]
      intro hk
      rcases hrest _ hk with hk | hk <;> cases hk
    simp [nestedEnd, hpeek, leftover, h]
  | succ s =>
    have hpeek : c.peek? = some .semicolon := by
      simp [Cursor.peek?_eq, h, semicolons, List.replicate_succ]
    have hadvance : c.advance.ahead = semicolons s ++ rest := by
      simp [Cursor.ahead_advance, h, semicolons, List.replicate_succ]
    -- a semicolon is not taken if it is the last token of all
    have hempty : c.advance.rest.isEmpty = decide (s = 0 ∧ rest = []) := by
      have : c.advance.rest.isEmpty = c.advance.ahead.isEmpty := by
        simp [Cursor.ahead]
      rw [this, hadvance]
      cases s <;> cases rest <;> simp [semicolons, List.replicate_succ]
    unfold nestedEnd leftover
    by_cases hlast : s = 0 ∧ rest = []
    · obtain ⟨rfl, rfl⟩ := hlast
      simp [hpeek, hempty, h]
    · rw [if_pos (by simp [hpeek, hempty, hlast]), hadvance]
      congr 2
      split_ifs with hnil
      · have : s ≠ 0 := fun hs => hlast ⟨hs, hnil⟩
        omega
      · omega

theorem leftover_of_ne_nil {t s : Nat} {rest : List Token.Kind} (h : rest ≠ []) :
    leftover t s rest = s - t := by
  rw [leftover, if_neg h]
  omega

theorem leftover_succ (t s : Nat) (rest : List Token.Kind) :
    leftover 1 (leftover t s rest) rest = leftover (t + 1) s rest := by
  unfold leftover
  split_ifs <;> omega

/-- A phrase is read wherever conditions may be nested as deep as in it. -/
def Read (n t : Nat) (ks : List Token.Kind) : Phrase → Prop
  | .condition c => ∀ ⦃N s rest cur⦄, n ≤ N → Stops rest →
      cur.ahead = ks ++ semicolons s ++ rest →
      ∃ r d, condition N cur = .ok (r, d) ∧ r.eraseSpans = c
        ∧ d.ahead = semicolons (leftover t s rest) ++ rest
  | .members cs => ∀ ⦃N rest cur⦄, n ≤ N → cur.ahead = ks ++ .closing :: rest →
      ∃ first d, condition N cur = .ok (first, d) ∧ d.rest.length < cur.rest.length
        ∧ ∀ ⦃fuel⦄, d.rest.length ≤ fuel →
          ∃ more e, furtherMembers (condition N) fuel d = .ok (more, e)
            ∧ Condition.eraseAllSpans (first :: more) = cs ∧ e.ahead = .closing :: rest
  | .nested e c => ∀ ⦃N s rest cur⦄, n ≤ N + 1 → Stops rest →
      cur.ahead = ks ++ semicolons s ++ rest →
      ∃ q d, nestedQuery (condition N) cur = .ok (q, d) ∧ q.eraseSpans = ⟨e, c, {}⟩
        ∧ d.ahead = semicolons (leftover t s rest) ++ rest

theorem conditionLayer_leaf {read : Cursor → Except Failure (Condition × Cursor)} {c : Cursor}
    {a : Attribute} {ks : List Token.Kind} (h : c.ahead = a.kinds ++ ks) :
    conditionLayer read c = leaf read c := by
  simp [conditionLayer, Cursor.peek?_eq, h, Attribute.kinds]

theorem read_value {k : Token.Kind} {v : String} (a : Attribute) (op : ValueOp)
    (hk : k.value? = some v) :
    Read 1 0 (a.kinds ++ [.valueOp op, k]) (.condition (.value ⟨a, op, v⟩)) := by
  intro N s rest cur hn hrest hahead
  obtain ⟨N, rfl⟩ : ∃ M, N = M + 1 := ⟨N - 1, by omega⟩
  rw [List.append_assoc, List.append_assoc] at hahead
  obtain ⟨d, hsubject, hd⟩ := subject_complete hahead (by simp)
  obtain ⟨hvalue, hrest⟩ := @value_complete d.advance k v (semicolons s ++ rest) hk
    (by simp [Cursor.ahead_advance, hd])
  refine ⟨.value ⟨a, op, v⟩, d.advance.advance, ?_, rfl, ?_⟩
  · rw [condition, conditionLayer_leaf hahead, leaf]
    simp only [hsubject, Except.ok_bind, Cursor.peek?_eq, hd, List.cons_append, List.head?_cons,
      hvalue]
  · simp [hrest, leftover]

theorem read_bare (a : Attribute) :
    Read 1 0 a.kinds (.condition (.value ⟨a, .equal, "true"⟩)) := by
  intro N s rest cur hn hrest hahead
  obtain ⟨N, rfl⟩ : ∃ M, N = M + 1 := ⟨N - 1, by omega⟩
  rw [List.append_assoc] at hahead
  have hhead := fun k => @head?_semicolons_append rest hrest s k
  obtain ⟨d, hsubject, hd⟩ := subject_complete hahead (by
    intro hk
    rcases hhead _ hk with hk | hk | hk <;> cases hk)
  refine ⟨.value ⟨a, .equal, "true"⟩, d, ?_, rfl, by simpa [leftover] using hd⟩
  rw [condition, conditionLayer_leaf hahead, leaf]
  simp only [hsubject, Except.ok_bind, Cursor.peek?_eq, hd]
  -- no operator follows, so the leaf is short for a comparison with `true`
  split
  · rename_i hk
    rcases hhead _ hk with hk | hk | hk <;> cases hk
  · rename_i hk
    rcases hhead _ hk with hk | hk | hk <;> cases hk
  · rfl

theorem read_relation {e : Entity} {c : Condition} {n t : Nat} {ks : List Token.Kind}
    (a : Attribute) (op : RelOp) (hone : 1 ≤ n) (h : Read n t ks (.nested e c)) :
    Read n t (a.kinds ++ .relOp op :: ks) (.condition (.relation a op e c {})) := by
  intro N s rest cur hn hrest hahead
  obtain ⟨N, rfl⟩ : ∃ M, N = M + 1 := ⟨N - 1, by omega⟩
  rw [List.append_assoc, List.append_assoc] at hahead
  obtain ⟨d, hsubject, hd⟩ := subject_complete hahead (by simp)
  -- the level of the leaf is the one of the nested query
  obtain ⟨q, f, hnested, hq, hf⟩ := @h N s rest d.advance hn hrest
    (by simp [Cursor.ahead_advance, hd])
  refine ⟨Condition.relate a op q, f, ?_, ?_, hf⟩
  · rw [condition, conditionLayer_leaf hahead, leaf]
    simp only [hsubject, Except.ok_bind, Cursor.peek?_eq, hd, List.cons_append, List.head?_cons,
      hnested]
  · obtain ⟨he, hc, -⟩ := Query.mk.inj hq
    simp only [Condition.relate, Condition.eraseSpans, he, hc]

theorem read_negation {c : Condition} {n t m : Nat} {ks : List Token.Kind} (hm : m ≤ t)
    (h : Read n t ks (.condition c)) :
    Read (n + 1) 0 (.notWord :: .opening :: (ks ++ semicolons m ++ [.closing]))
      (.condition (.negation c)) := by
  intro N s rest cur hn hrest hahead
  obtain ⟨N, rfl⟩ : ∃ M, N = M + 1 := ⟨N - 1, by omega⟩
  -- the semicolons of nested queries that end here are all read in front of the bracket
  obtain ⟨hopen, hinner⟩ := @take_complete .opening .negationOpening cur.advance
    (ks ++ semicolons m ++ .closing :: (semicolons s ++ rest))
    (by simp [Cursor.ahead_advance, hahead])
  obtain ⟨r, d, hr, herase, hd⟩ := h (Nat.le_of_succ_le_succ hn) (by simp [Stops]) hinner
  rw [leftover_of_ne_nil (List.cons_ne_nil _ _), Nat.sub_eq_zero_of_le hm] at hd
  obtain ⟨hclose, hbehind⟩ := @take_complete .closing .negationClosing d _ hd
  refine ⟨.negation r, d.advance, ?_, ?_, ?_⟩
  · rw [condition, conditionLayer]
    simp only [Cursor.peek?_eq cur, hahead, List.cons_append, List.head?_cons, hopen,
      Except.ok_bind, hr, hclose]
  · rw [Condition.eraseSpans, herase]
  · simpa [leftover] using hbehind

theorem read_group {c d : Condition} {cs : List Condition} {n : Nat} {ks : List Token.Kind}
    (k : Connective) (h : Read n 0 ks (.members (c :: d :: cs))) :
    Read (n + 1) 0 (.connective k :: .opening :: (ks ++ [.closing]))
      (.condition (.group k (c :: d :: cs))) := by
  intro N s rest cur hn hrest hahead
  obtain ⟨N, rfl⟩ : ∃ M, N = M + 1 := ⟨N - 1, by omega⟩
  obtain ⟨hopen, hinner⟩ := @take_complete .opening (.groupOpening k) cur.advance
    (ks ++ .closing :: (semicolons s ++ rest)) (by simp [Cursor.ahead_advance, hahead])
  obtain ⟨first, f, hfirst, -, hfurther⟩ := h (Nat.le_of_succ_le_succ hn) hinner
  obtain ⟨more, g, hmore, herase, hg⟩ := hfurther (le_refl _)
  obtain ⟨hclose, hbehind⟩ := @take_complete .closing (.groupClosing k) g _ hg
  have hnonempty : more.isEmpty = false := by
    cases more with
    | nil => simp [Condition.eraseAllSpans] at herase
    | cons _ _ => rfl
  refine ⟨.group k (first :: more), g.advance, ?_, ?_, ?_⟩
  · rw [condition, conditionLayer]
    simp only [Cursor.peek?_eq cur, hahead, List.cons_append, List.head?_cons, hopen,
      Except.ok_bind, hfirst, hmore, hclose, hnonempty]
    rfl
  · rw [Condition.eraseSpans, herase]
  · simpa [leftover] using hbehind

/-- Reading a condition takes tokens. -/
theorem length_lt_of_condition {N : Nat} {c d : Cursor} {r : Condition}
    (h : condition N c = .ok (r, d)) : d.rest.length < c.rest.length := by
  obtain ⟨n, t, m, ks, -, -, hr, hahead⟩ := condition_sound N h
  have hlen := congrArg List.length hahead
  have hpos := List.length_pos_of_ne_nil hr.ne_nil
  simp only [Cursor.ahead, List.length_map, List.length_append] at hlen
  omega

theorem read_last {c : Condition} {n t m : Nat} {ks : List Token.Kind} (hm : m ≤ t)
    (h : Read n t ks (.condition c)) : Read n 0 (ks ++ semicolons m) (.members [c]) := by
  intro N rest cur hn hahead
  obtain ⟨first, d, hfirst, herase, hd⟩ := h hn (by simp [Stops]) hahead
  rw [leftover_of_ne_nil (List.cons_ne_nil _ _), Nat.sub_eq_zero_of_le hm] at hd
  refine ⟨first, d, hfirst, length_lt_of_condition hfirst, fun fuel _ => ⟨[], d, ?_, ?_, hd⟩⟩
  · cases fuel with
    | zero => rfl
    | succ fuel => simp [furtherMembers, Cursor.peek?_eq, hd, semicolons]
  · simp [Condition.eraseAllSpans, herase]

theorem read_more {c d : Condition} {cs : List Condition} {n l t m : Nat}
    {ks ls : List Token.Kind} (hm : m ≤ t) (h : Read n t ks (.condition c))
    (hs : Read l 0 ls (.members (d :: cs))) :
    Read (max n l) 0 (ks ++ semicolons m ++ .comma :: ls) (.members (c :: d :: cs)) := by
  intro N rest cur hn hahead
  rw [List.append_assoc, List.cons_append] at hahead
  obtain ⟨first, f, hfirst, herase, hf⟩ := @h N m _ cur (by omega) (by simp [Stops]) hahead
  rw [leftover_of_ne_nil (List.cons_ne_nil _ _), Nat.sub_eq_zero_of_le hm] at hf
  have hcomma : f.peek? = some .comma := by
    simp [Cursor.peek?_eq, hf, semicolons]
  have hlen : f.advance.rest.length + 1 = f.rest.length := by
    have := congrArg List.length (Cursor.ahead_eq_cons hcomma)
    simpa [Cursor.ahead] using this.symm
  obtain ⟨second, g, hsecond, hlt, hfurther⟩ := @hs N rest f.advance (by omega)
    (by simp [Cursor.ahead_advance, hf, semicolons])
  -- every member takes a token at least, so the fuel lasts
  refine ⟨first, f, hfirst, length_lt_of_condition hfirst, fun fuel hfuel => ?_⟩
  cases fuel with
  | zero => omega
  | succ fuel =>
    obtain ⟨more, k, hmore, herase', hk⟩ := @hfurther fuel (by omega)
    refine ⟨second :: more, k, ?_, ?_, hk⟩
    · simp only [furtherMembers, if_pos hcomma, hsecond, Except.ok_bind, hmore]
    · rw [Condition.eraseAllSpans, herase, herase']

theorem read_plain (e : Entity) : Read 1 1 e.kinds (.nested e (.placeholder e)) := by
  intro N s rest cur hn hrest hahead
  rw [List.append_assoc] at hahead
  have hhead := fun k => @head?_semicolons_append rest hrest s k
  obtain ⟨d, hentity, hd⟩ := entity_complete hahead (by
    intro name hk
    rcases hhead _ hk with hk | hk | hk <;> cases hk)
  have hwhere : d.peek? ≠ some .whereWord := by
    rw [Cursor.peek?_eq, hd]
    intro hk
    rcases hhead _ hk with hk | hk | hk <;> cases hk
  refine ⟨⟨e, .placeholder e, ⟨some (cur.spanTo d), none, none⟩⟩, nestedEnd d, ?_, rfl, ?_⟩
  · simp only [nestedQuery, hentity, Except.ok_bind, if_neg hwhere]
  · exact nestedEnd_complete hrest hd

theorem read_stated {c : Condition} {n t : Nat} {ks : List Token.Kind} (e : Entity)
    (h : Read n t ks (.condition c)) :
    Read (n + 1) (t + 1) (e.kinds ++ .whereWord :: ks) (.nested e c) := by
  intro N s rest cur hn hrest hahead
  rw [List.append_assoc, List.append_assoc] at hahead
  obtain ⟨d, hentity, hd⟩ := entity_complete hahead (by simp)
  have hwhere : d.peek? = some .whereWord := by
    simp [Cursor.peek?_eq, hd]
  obtain ⟨r, f, hr, herase, hf⟩ := @h N s rest d.advance (Nat.le_of_succ_le_succ hn) hrest
    (by simp [Cursor.ahead_advance, hd])
  refine ⟨⟨e, r, ⟨some (cur.spanTo d), some d.span, some (d.advance.spanTo f)⟩⟩, nestedEnd f,
    ?_, ?_, ?_⟩
  · simp only [nestedQuery, hentity, Except.ok_bind, if_pos hwhere, hr]
  · rw [Query.eraseSpans, herase]
  · rw [nestedEnd_complete hrest hf, leftover_succ]

/-- What follows the grammar is read, wherever conditions may be nested deep enough. -/
theorem read_of_reads {p : Phrase} {n t : Nat} {ks : List Token.Kind} (h : Reads p n t ks) :
    Read n t ks p := by
  induction h with
  | value a op hk => exact read_value a op hk
  | bare a => exact read_bare a
  | relation a op h ih => exact read_relation a op h.one_le ih
  | negation h hm ih => exact read_negation hm ih
  | group k h ih => exact read_group k ih
  | last h hm ih => exact read_last hm ih
  | more h hm hs ih ihs => exact read_more hm ih ihs
  | plain e => exact read_plain e
  | stated e h ih => exact read_stated e ih

/-! ### What is nested too deep is not read -/

/-- A phrase is not read where conditions may not be nested as deep as in it. -/
def TooDeep (n : Nat) (ks : List Token.Kind) : Phrase → Prop
  | .condition _ => ∀ ⦃N s rest cur⦄, N < n → Stops rest →
      cur.ahead = ks ++ semicolons s ++ rest → ∃ f, condition N cur = .error f
  | .members _ => ∀ ⦃N rest cur⦄, N < n → cur.ahead = ks ++ .closing :: rest →
      (∃ f, condition N cur = .error f) ∨ ∃ first d, condition N cur = .ok (first, d)
        ∧ ∀ ⦃fuel⦄, d.rest.length ≤ fuel → ∃ f, furtherMembers (condition N) fuel d = .error f
  | .nested _ _ => ∀ ⦃N s rest cur⦄, N + 1 < n → Stops rest →
      cur.ahead = ks ++ semicolons s ++ rest → ∃ f, nestedQuery (condition N) cur = .error f

theorem tooDeep_relation {e : Entity} {c : Condition} {n : Nat} {ks : List Token.Kind}
    (a : Attribute) (op : RelOp) (h : TooDeep n ks (.nested e c)) :
    TooDeep n (a.kinds ++ .relOp op :: ks) (.condition (.relation a op e c {})) := by
  intro N s rest cur hn hrest hahead
  cases N with
  | zero => exact ⟨_, rfl⟩
  | succ N =>
    rw [List.append_assoc, List.append_assoc] at hahead
    obtain ⟨d, hsubject, hd⟩ := subject_complete hahead (by simp)
    obtain ⟨f, hnested⟩ := @h N s rest d.advance hn hrest (by simp [Cursor.ahead_advance, hd])
    refine ⟨f, ?_⟩
    rw [condition, conditionLayer_leaf hahead, leaf]
    simp only [hsubject, Except.ok_bind, Cursor.peek?_eq, hd, List.cons_append, List.head?_cons,
      hnested]
    rfl

theorem tooDeep_negation {c : Condition} {n m : Nat} {ks : List Token.Kind}
    (h : TooDeep n ks (.condition c)) :
    TooDeep (n + 1) (.notWord :: .opening :: (ks ++ semicolons m ++ [.closing]))
      (.condition (.negation c)) := by
  intro N s rest cur hn hrest hahead
  cases N with
  | zero => exact ⟨_, rfl⟩
  | succ N =>
    obtain ⟨hopen, hinner⟩ := @take_complete .opening .negationOpening cur.advance
      (ks ++ semicolons m ++ .closing :: (semicolons s ++ rest))
      (by simp [Cursor.ahead_advance, hahead])
    obtain ⟨f, hf⟩ := h (Nat.lt_of_succ_lt_succ hn) (by simp [Stops]) hinner
    refine ⟨f, ?_⟩
    rw [condition, conditionLayer]
    simp only [Cursor.peek?_eq cur, hahead, List.cons_append, List.head?_cons, hopen,
      Except.ok_bind, hf]
    rfl

theorem tooDeep_group {cs : List Condition} {n : Nat} {ks : List Token.Kind} (k : Connective)
    (h : TooDeep n ks (.members cs)) :
    TooDeep (n + 1) (.connective k :: .opening :: (ks ++ [.closing]))
      (.condition (.group k cs)) := by
  intro N s rest cur hn hrest hahead
  cases N with
  | zero => exact ⟨_, rfl⟩
  | succ N =>
    obtain ⟨hopen, hinner⟩ := @take_complete .opening (.groupOpening k) cur.advance
      (ks ++ .closing :: (semicolons s ++ rest)) (by simp [Cursor.ahead_advance, hahead])
    rw [condition, conditionLayer]
    simp only [Cursor.peek?_eq cur, hahead, List.cons_append, List.head?_cons, hopen,
      Except.ok_bind]
    rcases h (Nat.lt_of_succ_lt_succ hn) hinner with ⟨f, hf⟩ | ⟨first, d, hfirst, hfurther⟩
    · exact ⟨f, by rw [hf]; rfl⟩
    · obtain ⟨f, hf⟩ := hfurther (le_refl _)
      exact ⟨f, by simp only [hfirst, Except.ok_bind, hf]; rfl⟩

theorem tooDeep_more {c d : Condition} {cs : List Condition} {n l t m : Nat}
    {ks ls : List Token.Kind} (hm : m ≤ t) (hread : Read n t ks (.condition c))
    (h : TooDeep n ks (.condition c)) (hs : TooDeep l ls (.members (d :: cs))) :
    TooDeep (max n l) (ks ++ semicolons m ++ .comma :: ls) (.members (c :: d :: cs)) := by
  intro N rest cur hn hahead
  rw [List.append_assoc, List.cons_append] at hahead
  -- the first member is too deep, or it is read and one of the others is
  by_cases hdeep : N < n
  · exact .inl (@h N m _ cur hdeep (by simp [Stops]) hahead)
  obtain ⟨first, f, hfirst, -, hf⟩ := @hread N m _ cur (by omega) (by simp [Stops]) hahead
  rw [leftover_of_ne_nil (List.cons_ne_nil _ _), Nat.sub_eq_zero_of_le hm] at hf
  have hcomma : f.peek? = some .comma := by
    simp [Cursor.peek?_eq, hf, semicolons]
  have hlen : f.advance.rest.length + 1 = f.rest.length := by
    have := congrArg List.length (Cursor.ahead_eq_cons hcomma)
    simpa [Cursor.ahead] using this.symm
  refine .inr ⟨first, f, hfirst, fun fuel hfuel => ?_⟩
  cases fuel with
  | zero => omega
  | succ fuel =>
    have hnext := @hs N rest f.advance (by omega)
      (by simp [Cursor.ahead_advance, hf, semicolons])
    simp only [furtherMembers, if_pos hcomma]
    rcases hnext with ⟨g, hg⟩ | ⟨second, g, hsecond, hfurther⟩
    · exact ⟨g, by rw [hg]; rfl⟩
    · have hlt := length_lt_of_condition hsecond
      obtain ⟨k, hk⟩ := @hfurther fuel (by omega)
      exact ⟨k, by simp only [hsecond, Except.ok_bind, hk]; rfl⟩

theorem tooDeep_stated {c : Condition} {n : Nat} {ks : List Token.Kind} (e : Entity)
    (h : TooDeep n ks (.condition c)) :
    TooDeep (n + 1) (e.kinds ++ .whereWord :: ks) (.nested e c) := by
  intro N s rest cur hn hrest hahead
  rw [List.append_assoc, List.append_assoc] at hahead
  obtain ⟨d, hentity, hd⟩ := entity_complete hahead (by simp)
  have hwhere : d.peek? = some .whereWord := by
    simp [Cursor.peek?_eq, hd]
  obtain ⟨f, hf⟩ := @h N s rest d.advance (Nat.lt_of_succ_lt_succ hn) hrest
    (by simp [Cursor.ahead_advance, hd])
  exact ⟨f, by simp only [nestedQuery, hentity, Except.ok_bind, if_pos hwhere, hf]; rfl⟩

/-- What follows the grammar is not read where conditions may not be nested deep enough. -/
theorem tooDeep_of_reads {p : Phrase} {n t : Nat} {ks : List Token.Kind} (h : Reads p n t ks) :
    TooDeep n ks p := by
  -- leaves are nested one deep, so only level zero is too low for them
  induction h with
  | value a op hk =>
    intro N s rest cur hn _ _
    obtain rfl : N = 0 := by omega
    exact ⟨_, rfl⟩
  | bare a =>
    intro N s rest cur hn _ _
    obtain rfl : N = 0 := by omega
    exact ⟨_, rfl⟩
  | relation a op h ih => exact tooDeep_relation a op ih
  | negation h hm ih => exact tooDeep_negation ih
  | group k h ih => exact tooDeep_group k ih
  | last h hm ih =>
    intro N rest cur hn hahead
    exact .inl (ih hn (by simp [Stops]) hahead)
  | more h hm hs ih ihs => exact tooDeep_more hm (read_of_reads h) ih ihs
  | plain e =>
    intro N s rest cur hn _ _
    omega
  | stated e h ih => exact tooDeep_stated e ih

end NodeQuery.Parser
