/-
Where queries stand among the tokens.

The declaration of a query, its `where` and its condition are read from tokens that follow one
another, and the query bears the places of these tokens. The queries nested in the condition stand
among the tokens of the condition in the same way, so with a query all queries in it are known to
stand among its tokens.

* `Token.spanOf`: the bytes from the first to the last of some tokens.
* `Parser.StandsIn`: where a query stands among tokens; `Parser.StandsIn.of_mem_queries`: with it
  stand all queries in it.
* `Parser.Locates`: a reader of conditions tells where the queries in them stand;
  `Parser.locates_condition`: conditions are read so.
* `Parser.standsIn_wholeQuery`: where an outermost query stands.
-/
import NodeQuery.Proofs.Parsing
import NodeQuery.Proofs.Parsing.Progress
import NodeQuery.Proofs.Shape

namespace NodeQuery

/-- The bytes from the first to the last of some tokens. -/
def Token.spanOf (ts : List Token) : Span :=
  ⟨(ts.head?.map fun t => t.start.offset).getD 0, (ts.getLast?.map Token.stop).getD 0⟩

namespace Parser

open Grammar

section Spans

variable {c d : Cursor} {t : Token} {us : List Token}

theorem Cursor.Takes.span_eq (h : c.Takes (t :: us) d) : c.span = t.span := by
  rw [span, h.rest_eq]
  rfl

theorem Cursor.Takes.spanTo_eq (h : c.Takes us d) (hne : us ≠ []) :
    c.spanTo d = Token.spanOf us := by
  obtain ⟨t, us, rfl⟩ := List.exists_cons_of_ne_nil hne
  rw [spanTo, h.span_eq, h.stop_eq, Token.spanOf, List.getLast?_cons]
  rfl

end Spans

section Nonempty

variable {ts : List Token}

theorem ne_nil_of_declaration {e : Entity} (h : ts.map Token.kind = e.kinds) : ts ≠ [] := by
  rintro rfl
  cases h

theorem ne_nil_of_reads {p : Phrase} {n t : Nat} {ks ls : List Token.Kind} (hr : Reads p n t ks)
    (h : ts.map Token.kind = ks ++ ls) : ts ≠ [] := by
  rintro rfl
  exact hr.ne_nil (List.append_eq_nil_iff.mp h.symm).1

end Nonempty

/-! ### Queries among tokens -/

/-- `StandsIn q us rest`: the query `q` stands among the tokens `us`, behind which are the tokens
`rest`, and bears the places of its parts. Without a condition it stands on its declaration alone,
and with one also on a `where` and the tokens from which the condition is read. -/
inductive StandsIn : Query → List Token → List Token → Prop where
  | plain {e : Entity} {front es behind rest : List Token} (hes : es.map Token.kind = e.kinds)
      (hbehind : (behind ++ rest).head?.map Token.kind ≠ some .whereWord) :
      StandsIn ⟨e, .placeholder e, ⟨some (Token.spanOf es), none, none⟩⟩ (front ++ es ++ behind)
        rest
  | stated {e : Entity} {c : Condition} {front es cs behind rest : List Token} {w : Token}
      {n t m : Nat} {ks : List Token.Kind} (hes : es.map Token.kind = e.kinds)
      (hw : w.kind = .whereWord) (hn : n ≤ maxNesting) (hm : m ≤ t)
      (hr : Reads (.condition c.eraseSpans) n t ks) (hcs : cs.map Token.kind = ks ++ semicolons m)
      (hnested : ∀ p ∈ c.atomics.filterMap Atomic.query?, StandsIn p cs (behind ++ rest)) :
      StandsIn ⟨e, c, ⟨some (Token.spanOf es), some w.span, some (Token.spanOf cs)⟩⟩
        (front ++ (es ++ w :: cs) ++ behind) rest

namespace StandsIn

variable {p q : Query} {us rest : List Token}

/-- What stands among tokens stands among more of them. -/
theorem mono {behind : List Token} (h : StandsIn p us (behind ++ rest)) (front : List Token) :
    StandsIn p (front ++ us ++ behind) rest := by
  generalize hrest : behind ++ rest = rest' at h
  subst hrest
  cases h with
  | plain hes hbehind =>
    rename_i e before es after
    rw [← List.append_assoc] at hbehind
    simpa using @StandsIn.plain e (front ++ before) es (after ++ behind) rest hes hbehind
  | stated hes hw hn hm hr hcs hnested =>
    rename_i e c before es cs after w n t m ks
    rw [← List.append_assoc] at hnested
    simpa using @StandsIn.stated e c (front ++ before) es cs (after ++ behind) rest w n t m ks
      hes hw hn hm hr hcs hnested

/-- With a query all queries in it stand among its tokens. -/
theorem of_mem_queries (h : StandsIn q us rest) : ∀ p ∈ q.queries, StandsIn p us rest := by
  induction h with
  | plain hes hbehind => exact List.forall_mem_singleton.mpr (.plain hes hbehind)
  | stated hes hw hn hm hr hcs hnested ih =>
    rename_i e c front es cs behind rest w n t m ks
    rw [Query.queries_eq]
    refine List.forall_mem_cons.mpr ⟨.stated hes hw hn hm hr hcs hnested, fun p hp => ?_⟩
    obtain ⟨child, hchild, hp⟩ := List.mem_flatMap.mp hp
    simpa using (ih child hchild p hp).mono (front ++ es ++ [w])

end StandsIn

/-! ### What readers find -/

/-- A reader of conditions tells where the queries stand that are nested directly in what it
reads. -/
def Locates (read : Cursor → Except Failure (Condition × Cursor)) : Prop :=
  ∀ ⦃c d r⦄, read c = .ok (r, d) →
    ∃ us, c.Takes us d ∧ ∀ p ∈ r.atomics.filterMap Atomic.query?, StandsIn p us d.rest

/-- What has been taken if a reader succeeds. -/
theorem Moves.exists_takes {α : Type} {c d : Cursor} {x : Except Failure (α × Cursor)} {a : α}
    (hx : Moves c x) (h : x = .ok (a, d)) : ∃ us, c.Takes us d := by
  rw [h] at hx
  exact hx

theorem takes_entity {c d : Cursor} {e : Entity} (h : entity c = .ok (e, d)) :
    ∃ es, c.Takes es d ∧ es.map Token.kind = e.kinds ∧ c.spanTo d = Token.spanOf es := by
  obtain ⟨es, hes⟩ := (moves_entity c).exists_takes h
  have hkinds := hes.map_kind (entity_sound h)
  exact ⟨es, hes, hkinds, hes.spanTo_eq (ne_nil_of_declaration hkinds)⟩

theorem takes_take {kind : Token.Kind} {what : Expectation} {c d : Cursor}
    (h : take kind what c = .ok d) : ∃ t, c.Takes [t] d := by
  rw [take] at h
  split_ifs at h with hk
  cases h
  obtain ⟨t, -, ht⟩ := Cursor.takes_advance hk
  exact ⟨t, ht⟩

theorem mem_queries_group {k : Connective} {cs : List Condition} {p : Query} :
    p ∈ (Condition.group k cs).atomics.filterMap Atomic.query?
      ↔ ∃ c ∈ cs, p ∈ c.atomics.filterMap Atomic.query? := by
  rw [Condition.atomics, Condition.atomicsOfAll_eq_flatMap, List.filterMap_flatMap,
    List.mem_flatMap]

section Layer

variable {N : Nat} {read : Cursor → Except Failure (Condition × Cursor)}

/-- A declaration, a `where` and a condition, with what is taken behind them. -/
theorem standsIn_stated (hsound : Sound N read) (hN : N ≤ maxNesting) (hread : Locates read)
    {c c₁ c₂ d : Cursor} {e : Entity} {r : Condition} {vs : List Token}
    (hentity : entity c = .ok (e, c₁)) (hwhere : c₁.peek? = some .whereWord)
    (hcondition : read c₁.advance = .ok (r, c₂)) (hbehind : c₂.Takes vs d) :
    ∃ us, c.Takes us d ∧ StandsIn
      ⟨e, r, ⟨some (c.spanTo c₁), some c₁.span, some (c₁.advance.spanTo c₂)⟩⟩ us d.rest := by
  obtain ⟨es, hes, heskinds, hplace⟩ := takes_entity hentity
  obtain ⟨w, hw, hadvance⟩ := Cursor.takes_advance hwhere
  obtain ⟨cs, hcs, hnested⟩ := hread hcondition
  obtain ⟨n, t, m, ks, hn, hm, hr, hahead⟩ := hsound hcondition
  have hcskinds := hcs.map_kind hahead
  refine ⟨[] ++ (es ++ w :: cs) ++ vs, ?_, ?_⟩
  · simpa using ((hes.trans hadvance).trans hcs).trans hbehind
  · rw [hplace, hadvance.span_eq, hcs.spanTo_eq (ne_nil_of_reads hr hcskinds)]
    rw [hbehind.rest_eq] at hnested
    exact .stated heskinds hw (hn.trans hN) hm hr hcskinds hnested

theorem standsIn_nestedQuery (hsound : Sound N read) (hN : N ≤ maxNesting) (hread : Locates read)
    {c d : Cursor} {q : Query} (h : nestedQuery read c = .ok (q, d)) :
    ∃ us, c.Takes us d ∧ StandsIn q us d.rest := by
  rw [nestedQuery] at h
  obtain ⟨⟨e, c₁⟩, hentity, h⟩ := Except.bind_eq_ok.mp h
  simp only at h
  split_ifs at h with hk
  · obtain ⟨⟨r, c₂⟩, hcondition, h⟩ := Except.bind_eq_ok.mp h
    obtain ⟨vs, hvs⟩ := takes_nestedEnd c₂
    cases h
    exact standsIn_stated hsound hN hread hentity hk hcondition hvs
  · obtain ⟨es, hes, heskinds, hplace⟩ := takes_entity hentity
    obtain ⟨vs, hvs⟩ := takes_nestedEnd c₁
    cases h
    refine ⟨[] ++ es ++ vs, by simpa using hes.trans hvs, ?_⟩
    rw [hplace]
    refine .plain heskinds ?_
    rwa [← hvs.rest_eq]

theorem locates_leaf (hsound : Sound N read) (hN : N ≤ maxNesting) (hread : Locates read) :
    Locates (leaf read) := by
  intro c d r h
  rw [leaf] at h
  obtain ⟨⟨a, c₁⟩, hsubject, h⟩ := Except.bind_eq_ok.mp h
  obtain ⟨us, hus⟩ := (moves_subject c).exists_takes hsubject
  simp only at h
  split at h
  · rename_i op hk
    obtain ⟨⟨raw, c₂⟩, hvalue, h⟩ := Except.bind_eq_ok.mp h
    cases h
    obtain ⟨t, -, ht⟩ := Cursor.takes_advance hk
    obtain ⟨vs, hvs⟩ := (moves_value _).exists_takes hvalue
    exact ⟨_, (hus.trans ht).trans hvs, List.forall_mem_nil _⟩
  · rename_i op hk
    obtain ⟨⟨q, c₂⟩, hquery, h⟩ := Except.bind_eq_ok.mp h
    cases h
    obtain ⟨t, -, ht⟩ := Cursor.takes_advance hk
    obtain ⟨vs, hvs, hq⟩ := standsIn_nestedQuery hsound hN hread hquery
    refine ⟨_, (hus.trans ht).trans hvs, List.forall_mem_singleton.mpr ?_⟩
    simpa using @StandsIn.mono q vs c₂.rest [] hq (us ++ [t])
  · cases h
    exact ⟨us, hus, List.forall_mem_nil _⟩

theorem locates_furtherMembers (hread : Locates read) {fuel : Nat} {c d : Cursor}
    {cs : List Condition} (h : furtherMembers read fuel c = .ok (cs, d)) :
    ∃ us, c.Takes us d
      ∧ ∀ r ∈ cs, ∀ p ∈ r.atomics.filterMap Atomic.query?, StandsIn p us d.rest := by
  induction fuel generalizing c cs with
  | zero =>
    cases h
    exact ⟨[], .refl _, List.forall_mem_nil _⟩
  | succ fuel ih =>
    rw [furtherMembers] at h
    split_ifs at h with hk
    · obtain ⟨⟨member, c₁⟩, hmember, h⟩ := Except.bind_eq_ok.mp h
      obtain ⟨⟨more, c₂⟩, hmore, h⟩ := Except.bind_eq_ok.mp h
      cases h
      obtain ⟨t, -, ht⟩ := Cursor.takes_advance hk
      obtain ⟨us, hus, hfirst⟩ := hread hmember
      obtain ⟨vs, hvs, hothers⟩ := ih hmore
      refine ⟨[t] ++ us ++ vs, (ht.trans hus).trans hvs, List.forall_mem_cons.mpr ⟨?_, ?_⟩⟩
      · rw [hvs.rest_eq] at hfirst
        exact fun p hp => (hfirst p hp).mono [t]
      · intro r hr p hp
        simpa using @StandsIn.mono p vs d.rest [] (hothers r hr p hp) ([t] ++ us)
    · cases h
      exact ⟨[], .refl _, List.forall_mem_nil _⟩

theorem locates_conditionLayer (hsound : Sound N read) (hN : N ≤ maxNesting)
    (hread : Locates read) : Locates (conditionLayer read) := by
  intro c d r h
  rw [conditionLayer] at h
  split at h
  · rename_i hk
    obtain ⟨c₁, hopening, h⟩ := Except.bind_eq_ok.mp h
    obtain ⟨⟨inner, c₂⟩, hinner, h⟩ := Except.bind_eq_ok.mp h
    obtain ⟨c₃, hclosing, h⟩ := Except.bind_eq_ok.mp h
    cases h
    obtain ⟨t, -, ht⟩ := Cursor.takes_advance hk
    obtain ⟨o, ho⟩ := takes_take hopening
    obtain ⟨us, hus, hqueries⟩ := hread hinner
    obtain ⟨z, hz⟩ := takes_take hclosing
    refine ⟨[t] ++ [o] ++ us ++ [z], ((ht.trans ho).trans hus).trans hz, fun p hp => ?_⟩
    rw [hz.rest_eq] at hqueries
    exact (hqueries p hp).mono ([t] ++ [o])
  · rename_i k hk
    obtain ⟨c₁, hopening, h⟩ := Except.bind_eq_ok.mp h
    obtain ⟨⟨member, c₂⟩, hmember, h⟩ := Except.bind_eq_ok.mp h
    obtain ⟨⟨more, c₃⟩, hmore, h⟩ := Except.bind_eq_ok.mp h
    obtain ⟨c₄, hclosing, h⟩ := Except.bind_eq_ok.mp h
    split_ifs at h
    cases h
    obtain ⟨t, -, ht⟩ := Cursor.takes_advance hk
    obtain ⟨o, ho⟩ := takes_take hopening
    obtain ⟨us, hus, hfirst⟩ := hread hmember
    obtain ⟨vs, hvs, hothers⟩ := locates_furtherMembers hread hmore
    obtain ⟨z, hz⟩ := takes_take hclosing
    rw [hvs.rest_eq, hz.rest_eq] at hfirst
    rw [hz.rest_eq] at hothers
    refine ⟨[t] ++ [o] ++ us ++ vs ++ [z], (((ht.trans ho).trans hus).trans hvs).trans hz, ?_⟩
    intro p hp
    obtain ⟨r, hr, hpr⟩ := mem_queries_group.mp hp
    obtain rfl | hr := List.mem_cons.mp hr
    · rw [← List.append_assoc] at hfirst
      simpa using (hfirst p hpr).mono ([t] ++ [o])
    · exact (hothers r hr p hpr).mono ([t] ++ [o] ++ us)
  · exact locates_leaf hsound hN hread h
  · cases h

end Layer

theorem locates_condition {N : Nat} (hN : N ≤ maxNesting) : Locates (condition N) := by
  induction N with
  | zero =>
    intro c d r h
    cases h
  | succ N ih =>
    have hle := (Nat.le_succ N).trans hN
    exact locates_conditionLayer (condition_sound N) hle (ih hle)

/-- An outermost query stands among all tokens, and has a condition. -/
theorem standsIn_wholeQuery {c : Cursor} {q : Query} (h : wholeQuery c = .ok q) :
    q.spans.whereWord.isSome = true ∧ StandsIn q c.rest [] := by
  rw [wholeQuery] at h
  obtain ⟨⟨q', d⟩, hroot, h⟩ := Except.bind_eq_ok.mp h
  obtain ⟨⟨⟩, hend, h⟩ := Except.bind_eq_ok.mp h
  cases h
  rw [rootQuery] at hroot
  obtain ⟨⟨e, c₁⟩, hentity, hroot⟩ := Except.bind_eq_ok.mp hroot
  obtain ⟨c₂, hwhere, hroot⟩ := Except.bind_eq_ok.mp hroot
  obtain ⟨⟨r, c₃⟩, hcondition, hroot⟩ := Except.bind_eq_ok.mp hroot
  obtain ⟨c₄, hlast, hroot⟩ := Except.bind_eq_ok.mp hroot
  cases hroot
  obtain ⟨s, hs⟩ := takes_take hlast
  rw [take] at hwhere
  split_ifs at hwhere with hk
  cases hwhere
  obtain ⟨us, hus, hstands⟩ := standsIn_stated (condition_sound maxNesting) (le_refl _)
    (locates_condition (le_refl _)) hentity hk hcondition hs
  have hrest : d.rest = [] := List.map_eq_nil_iff.mp (ahead_of_inputEnd hend)
  rw [hrest] at hstands
  rw [hus.rest_eq, hrest, List.append_nil]
  exact ⟨rfl, hstands⟩

end Parser

end NodeQuery
