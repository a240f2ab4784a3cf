/-
The token to blame.

If tokens are not read as a query, then the token that is reported is really the first with which
they can not be the beginning of a query, unless a group with a single member is reported. There
is one exception, since a nested query leaves a semicolon in front of the end of the input to the
outermost query: such a semicolon may be reported although more tokens could follow it.

* `Parser.Passes`: the parser does not stop at one of the tokens if they are not the last ones.
* `Parser.Pairing.front`: two lists of tokens that begin alike.
* `Parser.error_isCulprit`: when the tokens up to the reported one can be continued.
-/
import NodeQuery.Proofs.Parsing
import NodeQuery.Proofs.Parsing.Beginnings
import NodeQuery.Proofs.Parsing.InStep
import NodeQuery.Proofs.Reporting

namespace NodeQuery.Parser

open Grammar

/-! ### Lists that begin alike -/

/-- Two lists of tokens that begin alike and end with `us` and `us'`. The parser can not tell
one from the other in front of these ends, unless one of them is empty behind a semicolon. -/
def Pairing.front (us us' : List Token) : Pairing where
  paired ts ts' := ∃ qs, qs ≠ [] ∧ (us = [] → ∀ t ∈ qs.getLast?, t.kind ≠ .semicolon)
    ∧ ts = qs ++ us ∧ ts' = qs ++ us'
  parted ts := ts <:+ us
  closes := .closing ∈ us.map Token.kind
  head := by
    rintro _ _ ⟨qs, hne, -, rfl, rfl⟩
    obtain ⟨q, qs, rfl⟩ := List.exists_cons_of_ne_nil hne
    rfl
  tail := by
    rintro t t' ts ts' ⟨qs, hne, hlast, hts, hts'⟩
    obtain ⟨q, qs, rfl⟩ := List.exists_cons_of_ne_nil hne
    obtain ⟨rfl, rfl⟩ := List.cons.inj hts
    obtain ⟨rfl, rfl⟩ := List.cons.inj hts'
    cases qs with
    | nil => exact .inr (List.suffix_refl us)
    | cons p qs => exact .inl ⟨p :: qs, by simp, by simpa using hlast, rfl, rfl⟩
  isEmpty := by
    rintro t t' ts ts' ⟨qs, hne, hlast, hts, hts'⟩ hkind
    obtain ⟨q, qs, rfl⟩ := List.exists_cons_of_ne_nil hne
    obtain ⟨rfl, rfl⟩ := List.cons.inj hts
    obtain ⟨rfl, rfl⟩ := List.cons.inj hts'
    cases qs with
    | nil =>
      cases us with
      | nil => exact absurd hkind (hlast rfl _ rfl)
      | cons u us => exact .inr ⟨rfl, List.suffix_refl _⟩
    | cons p qs => exact .inl rfl
  suffix := fun h hss => hss.trans h
  closing := by
    rintro t ts h hkind
    exact List.mem_map.mpr ⟨t, h.subset (List.mem_cons_self ..), hkind⟩

/-- If the parser stops at a token that two lists have in common, it stops there in both. -/
theorem exists_error_of_front {qs us us' : List Token} {f : Failure} (hne : qs ≠ [])
    (hlast : us = [] → ∀ t ∈ qs.getLast?, t.kind ≠ .semicolon)
    (hf : wholeQuery ⟨qs ++ us, 0⟩ = .error f) (hlength : us.length < f.rest.length)
    (hlonely : .closing ∈ us.map Token.kind → ∀ k, f.cause ≠ .lonelyMember k) :
    ∃ g, wholeQuery ⟨qs ++ us', 0⟩ = .error g := by
  have hpaired : (Pairing.front us us').paired (qs ++ us) (qs ++ us') :=
    ⟨qs, hne, hlast, rfl, rfl⟩
  rcases @Pairing.wholeQuery_eq_error _ ⟨qs ++ us, 0⟩ ⟨qs ++ us', 0⟩ hpaired f hf
    with ⟨g, hg, -, -⟩ | hparted | ⟨hcloses, k, hk⟩
  · exact ⟨g, hg⟩
  · exact absurd hparted.length_le (Nat.not_le.mpr hlength)
  · exact absurd hk (hlonely hcloses k)

/-! ### Beginnings of queries -/

/-- Some tokens that begin with the given ones are read as a query. -/
def Continues (qs : List Token) : Prop :=
  ∃ ts q, parseTokens (qs ++ ts) = .ok q

/-- The parser does not stop at one of the tokens if a bracket stands behind them. -/
def Passes (qs : List Token) : Prop :=
  ∃ b f, b.kind = .opening ∧ wholeQuery ⟨qs ++ [b], 0⟩ = .error f ∧ f.rest.length ≤ 1

/-- What the parser passes can be continued, if it ends with a semicolon. -/
theorem continues_of_passes {qs : List Token} {t : Token} (ht : t.kind = .semicolon)
    (h : Passes (qs ++ [t])) : Continues (qs ++ [t]) := by
  obtain ⟨b, f, hb, hf, hlate⟩ := h
  have hnears : Cursor.Nears ⟨qs ++ [t] ++ [b], 0⟩ (qs.map Token.kind) := by
    simp [Cursor.Nears, Cursor.ahead, ht, hb]
  obtain ⟨us, e, r, n, l, m, ls, hn, hm, hr, heq⟩ := beginsQuery_of_wholeQuery hnears hf hlate
  have hkinds : (qs ++ [t] ++ tokensOf us).map Token.kind
      = e.kinds ++ .whereWord :: (ls ++ semicolons (m + 1)) := by
    rw [← heq, List.map_append, map_kind_tokensOf]
    simp [ht]
  have hend : ∀ s ∈ qs ++ [t] ++ tokensOf us, s.kind ≠ .endOfInput := by
    intro s hs hkind
    have hmem : .endOfInput ∈ (qs ++ [t] ++ tokensOf us).map Token.kind :=
      List.mem_map.mpr ⟨s, hs, hkind⟩
    have hentity : .endOfInput ∉ e.kinds := e.not_mem_kinds rfl
    rw [hkinds] at hmem
    simp [hentity, hr.endOfInput_not_mem, semicolons] at hmem
  have herr : ∀ message, .error message ∉ (qs ++ [t] ++ tokensOf us).map Token.kind := by
    intro message
    rw [hkinds]
    simp [hr.error_not_mem, semicolons, Entity.error_not_mem_kinds]
  have hbody : body (qs ++ [t] ++ tokensOf us) = qs ++ [t] ++ tokensOf us := by
    have := body_append hend []
    simpa [body] using this
  obtain ⟨q, hq, -⟩ := (parseTokens_of_reads herr hr hm ((congrArg _ hbody).trans hkinds)).1 hn
  exact ⟨_, q, hq⟩

/-- The parser passes what can be continued. -/
theorem passes_of_continues {qs : List Token} (hne : qs ≠ [])
    (hend : ∀ t ∈ qs, t.kind ≠ .endOfInput) (h : Continues qs) : Passes qs := by
  obtain ⟨ts, q, hq⟩ := h
  obtain ⟨herr, hwhole⟩ := run_eq_ok.mp hq
  let b : Token := ⟨.opening, {}, 0, "("⟩
  rcases hf : wholeQuery ⟨qs ++ [b], 0⟩ with f | p
  · refine ⟨b, f, rfl, hf, Nat.le_of_not_lt fun hlt => ?_⟩
    obtain ⟨g, hg⟩ := @exists_error_of_front qs [b] (body ts) f hne (by simp) hf hlt (by simp [b])
    rw [body_append hend, hg] at hwhole
    cases hwhole
  · -- a query ends with a semicolon
    have hbody : body (qs ++ [b]) = qs ++ [b] := by
      rw [body_append hend]
      rfl
    have hread : parseTokens (qs ++ [b]) = .ok p := by
      refine run_eq_ok.mpr ⟨fun message hmem => ?_, by rwa [hbody]⟩
      simp only [List.map_append, List.mem_append, List.map_cons, List.map_nil,
        List.mem_singleton, b, reduceCtorEq, or_false] at hmem
      exact herr message (by rw [List.map_append]; exact List.mem_append_left _ hmem)
    obtain ⟨n, t, m, ks, -, -, -, hkinds⟩ := parseTokens_sound hread
    have hconcat : qs.map Token.kind ++ [.opening]
        = (p.entity.kinds ++ .whereWord :: (ks ++ semicolons m)) ++ [.semicolon] := by
      rw [hbody, List.map_append, semicolons_succ] at hkinds
      simpa using hkinds
    cases (List.append_inj' hconcat rfl).2

/-! ### The reported token -/

/-- If tokens are not read as a query, and what is reported is not a group with a single member,
then the tokens up to the reported one can not be continued to a query, except for a semicolon in
front of the end of the input that the parser would pass if more tokens stood behind it. -/
theorem error_isCulprit {tokens : List Token} {es : List ParseError}
    (herr : ∀ message, .error message ∉ tokens.map Token.kind)
    (h : parseTokens tokens = .error es) :
    ∃ (f : Failure) (qs : List Token), es = [f.toError (final tokens)]
      ∧ body tokens = qs ++ f.rest
      ∧ ∀ t us, f.rest = t :: us → (∀ k, f.cause ≠ .lonelyMember k) →
        (Continues (qs ++ [t]) ↔ t.kind = .semicolon ∧ us = [] ∧ Passes (qs ++ [t])) := by
  obtain ⟨hes, hne⟩ | ⟨-, f, hf, hes⟩ := run_eq_error h
  · have hnil := (lexicalErrors_eq_nil_iff tokens).mpr herr
    exact absurd (hes.trans ((lexicalErrors_eq tokens).symm.trans hnil)) hne
  obtain ⟨qs, hqs⟩ : f.rest <:+ body tokens := suffix_of_wholeQuery hf
  refine ⟨f, qs, hes, hqs.symm, fun t us hrest hcause => ?_⟩
  have hbody : ∀ s ∈ qs ++ [t], s.kind ≠ .endOfInput := by
    intro s hs hkind
    have hmem : s ∈ body tokens := by
      rw [← hqs, hrest, List.append_cons]
      exact List.mem_append_left _ hs
    simpa [hkind] using List.mem_takeWhile_imp hmem
  constructor
  · intro hcontinues
    have hlast : us = [] ∧ t.kind = .semicolon := by
      by_contra hnot
      obtain ⟨ts, q, hq⟩ := hcontinues
      rw [← hqs, hrest, List.append_cons] at hf
      obtain ⟨g, hg⟩ := @exists_error_of_front (qs ++ [t]) us (body ts) f (by simp)
        (by simpa using fun hnil => not_and.mp hnot hnil) hf (by simp [hrest]) fun _ => hcause
      have hwhole := (run_eq_ok.mp hq).2
      rw [body_append hbody, hg] at hwhole
      cases hwhole
    exact ⟨hlast.2, hlast.1, passes_of_continues (by simp) hbody hcontinues⟩
  · rintro ⟨ht, -, hpasses⟩
    exact continues_of_passes ht hpasses

/-- No query begins like this text up to the second alias. -/
theorem error_isCulprit_alias :
    let tokens := tokenize "a x y where x.k ;"
    ∃ qs t us, body tokens = qs ++ t :: us ∧ t.text = "y" ∧ ¬ Continues (qs ++ [t]) := by
  intro tokens
  let e : ParseError :=
    ⟨.grammar, "Expected 'where' after entity declaration, found identifier", ⟨4, 1, 5⟩, "y"⟩
  have h : parseTokens tokens = .error [e] := Except.failure?_eq_some.mp (by decide +kernel)
  have herr : ∀ message, .error message ∉ tokens.map Token.kind :=
    (lexicalErrors_eq_nil_iff tokens).mp (by decide +kernel)
  obtain ⟨f, qs, hf, hbody, hculprit⟩ := error_isCulprit herr h
  have hf : e = f.toError (final tokens) := List.singleton_inj.mp hf
  obtain ⟨cause, rest⟩ := f
  cases rest with
  | nil =>
    have htext : "y" = "" := congrArg ParseError.token hf
    exact absurd htext (by decide)
  | cons t us =>
    have htext : t.text = "y" := (congrArg ParseError.token hf).symm
    have hcause : ∀ k, cause ≠ .lonelyMember k := by
      rintro k rfl
      have hmessage : e.message
          = "'" ++ k.spelling ++ "' requires at least 2 conditions, found 1" :=
        congrArg ParseError.message hf
      revert hmessage
      cases k <;> decide
    have hkind : t.kind ≠ .semicolon :=
      (by decide +kernel : ∀ t ∈ body tokens, t.text = "y" → t.kind ≠ .semicolon) t
        (by simp [hbody]) htext
    exact ⟨qs, t, us, hbody, htext, fun hcontinues =>
      hkind ((hculprit t us rfl hcause).mp hcontinues).1⟩

/-- The semicolon of a nested query is reported if nothing stands behind it, though a bracket and
a second semicolon could follow. -/
theorem not_error_isCulprit_semicolon :
    let tokens := tokenize "a x where not(x.k contain b y ;"
    let more := tokenize ") ;"
    ∃ (f : Failure) (qs : List Token) (t : Token) (q : Query),
      parseTokens tokens = .error [f.toError (final tokens)] ∧ body tokens = qs ++ f.rest
        ∧ f.rest = [t] ∧ f.cause = .missing .negationClosing
        ∧ parseTokens (qs ++ [t] ++ more) = .ok q := by
  intro tokens more
  let t : Token := ⟨.semicolon, ⟨30, 1, 31⟩, 31, ";"⟩
  have hbody : body tokens = (body tokens).dropLast ++ [t] := by decide +kernel
  have hok : (parseTokens ((body tokens).dropLast ++ [t] ++ more)).isOk = true := by
    decide +kernel
  obtain ⟨q, hq⟩ := Except.isOk_iff.mp hok
  exact ⟨⟨.missing .negationClosing, [t]⟩, (body tokens).dropLast, t, q,
    Except.failure?_eq_some.mp (by decide +kernel), hbody, rfl, rfl, hq⟩

end NodeQuery.Parser
