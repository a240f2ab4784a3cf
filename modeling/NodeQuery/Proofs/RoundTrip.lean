/-
Reading undoes writing.

* `rereads_of_isPlain`: a condition made of names is read, once it is written, as itself, with
  each value replaced by what is written for it.
* `tidy_of_reads`: what is read of a text is made of names, and writing leaves its values as
  they are.
* `parse_render`: queries made of names survive writing and reading, and every query that is
  read of a text is one of them.
-/
import NodeQuery.Proofs.Writing

namespace NodeQuery

open Grammar

/-! ### Conditions made of names -/

theorem rereads_of_isPlain {c : Condition} (h : c.IsPlain) :
    Rereads c c.escaped.eraseSpans c.nesting := by
  induction c with
  | value m =>
    have ha := Attribute.leadsTo_of_isPlain h
    have := rereads_value ha m.operator m.value
    rwa [Attribute.hiddenLevels_of_isPlain h] at this
  | relation a op e c spans ih =>
    obtain ⟨ha, he, hc⟩ := h
    -- a placeholder is not written, and comes back as the condition of the bare declaration
    have hnested : RereadsNested e c c.escaped.eraseSpans
        (if c.isPlaceholder e then 1 else c.nesting + 1) := by
      split_ifs with hplaceholder
      · have := rereadsNested_plain he hplaceholder
        rw [Condition.isPlaceholder_iff.mp hplaceholder, Condition.escaped_placeholder he]
        rwa [Condition.isPlaceholder_iff.mp hplaceholder] at this
      · exact rereadsNested_stated he (by simpa using hplaceholder) (ih hc)
    have := rereads_relation (Attribute.leadsTo_of_isPlain ha) op spans hnested
    rwa [Attribute.hiddenLevels_of_isPlain ha] at this
  | negation c ih => exact rereads_negation (ih h)
  | group k cs ih =>
    obtain ⟨hlen, hcs⟩ := h
    rw [Condition.escaped, Condition.eraseSpans, Condition.escapedAll_eq_map,
      Condition.eraseAllSpans_eq_map, List.map_map]
    refine rereads_group_of_forall₂ k hlen ?_
    rw [List.forall₂_map_right_iff, List.forall₂_same]
    exact fun c hc => ih c hc (Condition.allWellFormed_iff.mp hcs c hc)

/-! ### What is read is made of names -/

theorem Attribute.isPlain_of_isGenuine {a : Attribute}
    (h : ∀ k ∈ a.kinds, k.isGenuine = true) : a.isPlain = true := by
  simp only [isPlain, Bool.and_eq_true, List.all_eq_true]
  refine ⟨h (.identifier a.name) (List.mem_cons_self ..), fun p hp => h (.identifier p) ?_⟩
  exact List.mem_cons_of_mem _ (List.mem_flatMap.mpr ⟨p, hp, by simp⟩)

theorem Entity.isPlain_of_isGenuine {e : Entity} (h : ∀ k ∈ e.kinds, k.isGenuine = true) :
    e.isPlain = true := by
  obtain ⟨nodeType, alias?⟩ := e
  cases alias? <;> simp_all [Entity.kinds, isPlain, Token.Kind.isGenuine]

/-- What is known of a phrase that is read of a text. -/
def Tidy (n : Nat) : Phrase → Prop
  | .condition c => c.IsPlain ∧ c.escaped = c ∧ c.nesting ≤ n
  | .members cs => (∀ c ∈ cs, c.IsPlain ∧ c.escaped = c)
      ∧ Condition.depthOfAll (fun _ => 0) cs ≤ n
  | .nested e c => e.isPlain = true ∧ c.IsPlain ∧ c.escaped = c
      ∧ (if c.isPlaceholder e then 1 else c.nesting + 1) ≤ n

theorem tidy_of_reads {p : Phrase} {n t : Nat} {ks : List Token.Kind} (h : Reads p n t ks)
    (hks : ∀ k ∈ ks, k.isGenuine = true) : Tidy n p := by
  -- by the productions; tokens of a text carry names and literals, never other texts
  induction h with
  | value a op hk =>
    simp only [List.forall_mem_append, List.forall_mem_cons] at hks
    refine ⟨Attribute.isPlain_of_isGenuine hks.1, ?_, le_refl 1⟩
    rw [Condition.escaped, Literal.escape_of_isGenuine hks.2.2.1 hk]
  | bare a =>
    have htrue : Literal.escape "true" = "true" := by decide
    exact ⟨Attribute.isPlain_of_isGenuine hks, by rw [Condition.escaped, htrue], le_refl 1⟩
  | relation a op h ih =>
    simp only [List.forall_mem_append, List.forall_mem_cons] at hks
    obtain ⟨he, hc, hescaped, hn⟩ := ih hks.2.2
    refine ⟨⟨Attribute.isPlain_of_isGenuine hks.1, he, hc⟩, ?_, ?_⟩
    · rw [Condition.escaped, hescaped]
    · simpa [Condition.nesting, Condition.depth] using hn
  | negation h hm ih =>
    simp only [List.forall_mem_append, List.forall_mem_cons] at hks
    obtain ⟨hc, hescaped, hn⟩ := ih hks.2.2.1.1
    refine ⟨hc, ?_, Nat.succ_le_succ hn⟩
    rw [Condition.escaped, hescaped]
  | group k h ih =>
    simp only [List.forall_mem_append, List.forall_mem_cons] at hks
    obtain ⟨hcs, hn⟩ := ih hks.2.2.1
    refine ⟨⟨by simp, Condition.allWellFormed_iff.mpr fun c hc => (hcs c hc).1⟩, ?_,
      Nat.succ_le_succ hn⟩
    rw [Condition.escaped, Condition.escapedAll_eq_map]
    exact congrArg _ ((List.map_congr_left fun c hc => (hcs c hc).2).trans (List.map_id _))
  | last h hm ih =>
    simp only [List.forall_mem_append] at hks
    obtain ⟨hc, hescaped, hn⟩ := ih hks.1
    refine ⟨by simpa using ⟨hc, hescaped⟩, ?_⟩
    simpa [Condition.depthOfAll, Condition.nesting] using hn
  | more h hm hs ih ihs =>
    simp only [List.forall_mem_append, List.forall_mem_cons] at hks
    obtain ⟨hc, hescaped, hn⟩ := ih hks.1.1
    obtain ⟨hcs, hl⟩ := ihs hks.2.2
    refine ⟨List.forall_mem_cons.mpr ⟨⟨hc, hescaped⟩, hcs⟩, ?_⟩
    rw [Condition.nesting] at hn
    rw [Condition.depthOfAll]
    omega
  | plain e =>
    have he := Entity.isPlain_of_isGenuine hks
    refine ⟨he, Condition.isPlain_placeholder he, Condition.escaped_placeholder he, ?_⟩
    rw [if_pos (Condition.isPlaceholder_iff.mpr rfl)]
  | stated e h ih =>
    simp only [List.forall_mem_append, List.forall_mem_cons] at hks
    obtain ⟨hc, hescaped, hn⟩ := ih hks.2.2
    refine ⟨Entity.isPlain_of_isGenuine hks.1, hc, hescaped, ?_⟩
    split_ifs
    · omega
    · exact Nat.succ_le_succ hn

/-- What is known of a query that is read of a text. -/
theorem tidy_of_parse {source : String} {q : Query} (h : parse source = .ok q) :
    q.IsPlain ∧ q.condition.nesting ≤ Parser.maxNesting ∧ q.escaped = q := by
  obtain ⟨n, t, m, ks, hn, -, hr, hks⟩ := Parser.parse_sound h
  have hgenuine : ∀ k ∈ kinds source.toList, k.isGenuine = true := isGenuine_of_mem_kinds
  rw [hks] at hgenuine
  simp only [List.forall_mem_append, List.forall_mem_cons] at hgenuine
  obtain ⟨hplain, hescaped, hnesting⟩ := tidy_of_reads hr hgenuine.2.2.1
  refine ⟨⟨Entity.isPlain_of_isGenuine hgenuine.1, ?_⟩, ?_, ?_⟩
  · exact Condition.wellFormed_eraseSpans.mp hplain
  · rw [Condition.nesting, Condition.depth_eraseSpans] at hnesting
    exact hnesting.trans hn
  · rw [Query.escaped, Condition.escaped_eq_self hescaped]

/-! ### The round trip -/

namespace Query

/-- A query made of names is read, once it is written, as itself. -/
theorem parse_render_of_isPlain {q : Query} (hq : q.IsPlain)
    (hn : q.condition.nesting ≤ Parser.maxNesting) :
    ∃ p, parse q.render = .ok p ∧ p.eraseSpans = q.escaped.eraseSpans :=
  (parse_of_rereads hq.1 (rereads_of_isPlain hq.2) q.spans).1 hn

theorem parseNested_renderNested_of_isPlain {q : Query} (hq : q.IsPlain)
    (hn : q.condition.nesting ≤ Parser.maxNesting) :
    ∃ p, parseNested q.renderNested = .ok p ∧ p.eraseSpans = q.escaped.eraseSpans := by
  obtain ⟨e, c, spans⟩ := q
  obtain ⟨he, hc⟩ := hq
  -- without `where` if the condition is the placeholder
  by_cases hplaceholder : c.isPlaceholder e = true
  · have h := rereadsNested_plain he hplaceholder
    obtain ⟨p, hp, herase⟩ := (parseNested_of_rereads spans h).1 (by simp)
    refine ⟨p, hp, ?_⟩
    rw [herase, escaped, eraseSpans, Condition.isPlaceholder_iff.mp hplaceholder,
      Condition.escaped_placeholder he]
    rfl
  · have h := rereadsNested_stated he (by simpa using hplaceholder) (rereads_of_isPlain hc)
    exact (parseNested_of_rereads spans h).1 (Nat.succ_le_succ hn)

theorem render_eraseSpans (q : Query) : q.eraseSpans.render = q.render := by
  rw [render, render, eraseSpans, Condition.render_eraseSpans]

end Query

/-- Reading undoes writing. A query made of names that is not nested too deep is read, as an
outermost one, as a nested one and its condition by itself, as what was written, with each
value replaced by what is written for it. Every query that is read of a text is one of these,
and its values are written as they are: written and read once more it is the same query, and
a text that has been written once is written again as it is. -/
theorem parse_render :
    (∀ q : Query, q.IsPlain → q.condition.nesting ≤ Parser.maxNesting →
      (∃ p, parse q.render = .ok p ∧ p.eraseSpans = q.escaped.eraseSpans)
        ∧ (∃ p, parseNested q.renderNested = .ok p ∧ p.eraseSpans = q.escaped.eraseSpans)
        ∧ ∃ c, parseCondition q.condition.render = .ok c
            ∧ c.eraseSpans = q.condition.escaped.eraseSpans)
      ∧ ∀ source q, parse source = .ok q →
        q.IsPlain ∧ q.condition.nesting ≤ Parser.maxNesting ∧ q.escaped = q
          ∧ (∃ p, parse q.render = .ok p ∧ p.eraseSpans = q.eraseSpans)
          ∧ ∃ text, roundTrip source = .ok text ∧ roundTrip text = .ok text := by
  constructor
  · intro q hq hn
    exact ⟨Query.parse_render_of_isPlain hq hn, Query.parseNested_renderNested_of_isPlain hq hn,
      (parseCondition_of_rereads (rereads_of_isPlain hq.2)).1 hn⟩
  · intro source q hparse
    obtain ⟨hq, hn, hescaped⟩ := tidy_of_parse hparse
    -- the query read is made of names itself, so it is read once more
    obtain ⟨p, hp, herase⟩ := Query.parse_render_of_isPlain hq hn
    rw [hescaped] at herase
    refine ⟨hq, hn, hescaped, ⟨p, hp, herase⟩, q.render, ?_, ?_⟩
    · rw [roundTrip, hparse]
      rfl
    · have hrender : p.render = q.render := by
        rw [← Query.render_eraseSpans p, herase, Query.render_eraseSpans]
      rw [roundTrip, hp, ← hrender]
      rfl

/-- A query with a value that is no literal and is written as a string. -/
theorem parse_render_literal :
    let q : Query := ⟨⟨"functionCall", some "fc"⟩,
      .relation ⟨"fc", ["arguments"]⟩ .contains ⟨"literal", some "lit"⟩
        (.value ⟨⟨"lit", ["value"]⟩, .equal, "a b"⟩) {}, {}⟩
    ∃ p, parse q.render = .ok p ∧ p.eraseSpans = q.escaped.eraseSpans ∧ p.escaped = p := by
  intro q
  obtain ⟨p, hp, herase⟩ := (parse_render.1 q (by decide) (by decide)).1
  obtain ⟨-, -, hescaped, -⟩ := parse_render.2 q.render p hp
  exact ⟨p, hp, herase, hescaped⟩

end NodeQuery
