/-
What a review leaves of a list of constraints, and what that declares.

In a list each constraint is judged by itself, and its place says which verdict is its own. What an
accepted constraint declares depends on what is read of the text that is written for it.

* `accepted_reviewAll`, `mem_indices_iff`: the constraints that are left, and the places of those
  that are rejected.
* `reviewAll_isExact`: the verdicts on the constraints of a list.
* `Constraint.entities_eq_nil`: a constraint without a relation describes a condition without
  entities.
* `declares_nothing_iff`: which accepted constraints declare no entity.
-/
import NodeQuery.Proofs.Merging
import NodeQuery.Proofs.Reviewing

namespace NodeQuery

open Grammar

/-! ### Lists of constraints -/

section Lists

variable {settings : Settings} {source : String} {cs : List Constraint}

theorem Rejection.of_ofVerdict? {i : Nat} {c : Constraint} {v : Verdict} {x : Rejection}
    (h : ofVerdict? i c v = some x) :
    v.report.isValid = false ∧ x.index = i ∧ x.discard = v.discard := by
  rw [ofVerdict?] at h
  split_ifs at h with hvalid
  cases h
  exact ⟨Bool.eq_false_iff.mpr hvalid, rfl, rfl⟩

theorem Rejection.exists_ofVerdict? {v : Verdict} (h : v.report.isValid = false) (i : Nat)
    (c : Constraint) : ∃ x, ofVerdict? i c v = some x := by
  rw [ofVerdict?, h]
  exact ⟨_, rfl⟩

/-- The rejections are those of the constraints, each reviewed by itself. -/
theorem mem_rejections_iff {x : Rejection} :
    x ∈ (reviewAll settings source cs).rejections
      ↔ ∃ c ∈ cs[x.index]?, Rejection.ofVerdict? x.index c (review settings source c) = some x := by
  rw [reviewAll, List.mem_filterMap]
  constructor
  · rintro ⟨⟨c, i⟩, hmem, hx⟩
    obtain ⟨-, rfl, -⟩ := Rejection.of_ofVerdict? hx
    exact ⟨c, List.mk_mem_zipIdx_iff_getElem?.mp hmem, hx⟩
  · rintro ⟨c, hc, hx⟩
    exact ⟨(c, x.index), List.mk_mem_zipIdx_iff_getElem?.mpr hc, hx⟩

theorem mem_indices_iff {i : Nat} :
    i ∈ (reviewAll settings source cs).rejections.map Rejection.index
      ↔ ∃ c ∈ cs[i]?, ¬ c.IsAcceptable settings source := by
  simp only [List.mem_map, mem_rejections_iff, ← isValid_review_iff, Bool.not_eq_true]
  constructor
  · rintro ⟨x, ⟨c, hc, hx⟩, rfl⟩
    exact ⟨c, hc, (Rejection.of_ofVerdict? hx).1⟩
  · rintro ⟨c, hc, hinvalid⟩
    obtain ⟨x, hx⟩ := Rejection.exists_ofVerdict? hinvalid i c
    obtain ⟨-, rfl, -⟩ := Rejection.of_ofVerdict? hx
    exact ⟨x, ⟨c, hc, hx⟩, rfl⟩

theorem pairwise_indices :
    ((reviewAll settings source cs).rejections.map Rejection.index).Pairwise (· < ·) := by
  have hplaces : cs.zipIdx.Pairwise fun a b => a.2 < b.2 := by
    rw [← List.pairwise_map, List.zipIdx_map_snd]
    exact List.pairwise_lt_range'
  rw [List.pairwise_map, reviewAll, List.pairwise_filterMap]
  refine hplaces.imp fun hlt x hx y hy => ?_
  rw [(Rejection.of_ofVerdict? hx).2.1, (Rejection.of_ofVerdict? hy).2.1]
  exact hlt

theorem accepted_reviewAll : (reviewAll settings source cs).accepted cs
    = cs.filter (Constraint.IsAcceptable settings source) := by
  have hkept : ∀ x ∈ cs.zipIdx,
      (! (reviewAll settings source cs).rejections.any (·.index = x.2))
        = decide (x.1.IsAcceptable settings source) := by
    rintro ⟨c, i⟩ hmem
    have hc : cs[i]? = some c := List.mk_mem_zipIdx_iff_getElem?.mp hmem
    have hany : (reviewAll settings source cs).rejections.any (·.index = i) = true
        ↔ ¬ c.IsAcceptable settings source := by
      have hiff : i ∈ (reviewAll settings source cs).rejections.map Rejection.index
          ↔ ∃ c ∈ cs[i]?, ¬ c.IsAcceptable settings source := mem_indices_iff
      rw [hc] at hiff
      simpa using hiff
    rw [Bool.eq_iff_iff, Bool.not_eq_true', ← Bool.not_eq_true, hany, not_not, decide_eq_true_iff]
  rw [Review.accepted, List.filter_congr hkept]
  have hzip : cs.zipIdx.map Prod.fst = cs := List.zipIdx_map_fst 0 cs
  conv_rhs => rw [← hzip, List.filter_map]
  rfl

end Lists

/-- The verdicts on the constraints of a list, for the text of a query: those that are left are the
acceptable ones, in their order. The places of the others are given in their order, each with what
is said of the constraint when it is reviewed by itself, and those are to be discarded that aim at
an alias of the query and relate to a nested query. -/
theorem reviewAll_isExact (settings : Settings) (source : String) (cs : List Constraint) :
    let r := reviewAll settings source cs
    r.accepted cs = cs.filter (Constraint.IsAcceptable settings source)
      ∧ (r.rejections.map Rejection.index).Pairwise (· < ·)
      ∧ (∀ i, i ∈ r.rejections.map Rejection.index
        ↔ ∃ c ∈ cs[i]?, ¬ c.IsAcceptable settings source)
      ∧ (∀ x, x ∈ r.rejections ↔ ∃ c ∈ cs[x.index]?,
        Rejection.ofVerdict? x.index c (review settings source c) = some x)
      ∧ (∀ x ∈ r.rejections, ∀ c ∈ cs[x.index]?, x.discard = true
        ↔ (∃ q ∈ (parse source).toOption, q.Declares c.leadingAlias) ∧ c.Relates)
      ∧ ∀ c, (review settings source c = .accept ↔ c.IsAcceptable settings source)
        ∧ ((review settings source c).discard = true
          ↔ (∃ q ∈ (parse source).toOption, q.Declares c.leadingAlias) ∧ c.Relates) := by
  refine ⟨accepted_reviewAll, pairwise_indices, fun i => mem_indices_iff,
    fun x => mem_rejections_iff, fun x hx c hc => ?_,
    fun c => ⟨review_eq_accept_iff, discard_review_iff⟩⟩
  obtain ⟨c', hc', hx⟩ := mem_rejections_iff.mp hx
  obtain rfl : c' = c := Option.mem_unique hc' hc
  rw [(Rejection.of_ofVerdict? hx).2.2, discard_review_iff]

example :
    let cs : List Constraint := [
      { path := "fc.name", operator? := "!=", value? := "b", action := .add },
      { path := "x.name", operator? := "!=", value? := "b", action := .add },
      { path := "fc.arguments", operator? := " IN", value? := "literal", action := .edit },
      { path := "fc.text", action := .delete }]
    let r := reviewAll {} "functionCall fc where fc.name == \"a\" ;" cs
    r.rejections.map (fun x => (x.index, x.discard)) = [(1, false), (2, true)]
      ∧ (r.accepted cs).map Constraint.path = ["fc.name", "fc.text"] := by
  decide +kernel

/-! ### What accepted constraints declare -/

theorem Condition.entities_eraseSpans (c : Condition) : c.eraseSpans.entities = c.entities := by
  induction c with
  | value m => rfl
  | relation a op e c spans ih => rw [eraseSpans, entities_relation, entities_relation, ih]
  | negation c ih => exact ih
  | group k cs ih =>
    rw [eraseSpans, entities_group, entities_group, eraseAllSpans_eq_map, List.flatMap_map]
    exact List.flatMap_congr ih

/-- What is read of a query with constraints applied declares what that query does. -/
theorem Query.entities_of_mirrors {settings : Settings} {p q : Query} {cs : List Constraint}
    (hentity : p.entity = q.entity)
    (h : (q.applyAll settings cs).condition.Mirrors p.condition.eraseSpans) :
    p.entities = (q.applyAll settings cs).entities := by
  have hcondition := h.1
  rw [Condition.entities_eraseSpans] at hcondition
  show p.entity :: p.condition.entities
    = q.entity :: (q.applyAll settings cs).condition.entities
  rw [hentity, hcondition]

/-- A constraint without a relation describes a condition without entities. -/
theorem Constraint.entities_eq_nil {c : Constraint} {new : Condition} (hno : ¬ c.Relates)
    (hnew : c.condition? = some new) : new.entities = [] := by
  obtain ⟨p, hp, rfl⟩ := Option.map_eq_some_iff.mp hnew
  obtain ⟨m, rfl⟩ := exists_value_of_not_relates hno hp
  split_ifs <;> rfl

/-- A condition that is read of a text has entities in it just when the text has relations. -/
theorem entities_eq_nil_iff {source : String} {r : Condition} (h : parseCondition source = .ok r) :
    r.entities = [] ↔ ¬∃ op, .relOp op ∈ kinds source.toList := by
  obtain ⟨n, t, m, ks, -, -, hr, hks⟩ := Parser.parseCondition_sound h
  have hiff := hr.relOp_mem_iff
  have hmem : (∃ op, Token.Kind.relOp op ∈ kinds source.toList) ↔ ∃ op, .relOp op ∈ ks := by
    simp [hks, semicolons]
  rw [hmem, hiff, ← Condition.entities_eraseSpans, Condition.entities, List.map_eq_nil_iff,
    not_not]
  rfl

/-- An accepted constraint declares no entity, neither in the condition that is read of it nor
in what it is merged into, just when no relation is read of the text that is written for it, if
that leaves no comment open. -/
theorem declares_nothing_iff {settings : Settings} {source : String} {q : Query} {c : Constraint}
    {d : Draft} (hq : parse source = .ok q)
    (hd : (Draft.mk (some q) none none).complete settings c = .ok d)
    (hclosed : c.action = .add → c.IsClosed) :
    ((∀ r ∈ d.reparsed?, r.queries = [])
        ∧ ∀ p, parse (merge settings source [c]) = .ok p → p.entities.Sublist q.entities)
      ↔ ∀ new ∈ d.condition?, ¬∃ op, .relOp op ∈ kinds new.render.toList := by
  obtain ⟨_, ⟨⟩, -, -, hno, hd⟩ := complete_eq_ok_iff.mp hd
  have hmerge : (c.action = .add → c.DeclaresNothing) → ∀ p,
      parse (merge settings source [c]) = .ok p → p.entities.Sublist q.entities := by
    intro hnothing p hp
    have hadded : ∀ b, Added q [c] b → b = c ∧ c.action = .add := by
      rintro b ⟨hmem, -, hadd⟩
      rw [List.mem_singleton] at hmem
      exact ⟨hmem, hmem ▸ hadd⟩
    have hmirrors := (parse_merge_of_isClosed settings hq
      (fun b hb => (hadded b hb).1 ▸ hclosed (hadded b hb).2)).2 p hp
      (fun b hb => (hadded b hb).1 ▸ hnothing (hadded b hb).2)
    rcases hmirrors with rfl | ⟨hentity, hcondition⟩
    · exact List.Sublist.refl _
    · rw [Query.entities_of_mirrors hentity hcondition]
      refine Query.entities_applyAll fun i b hb new hnew _ => ?_
      obtain ⟨hmem, -, -⟩ := mem_additions hb
      rw [List.mem_singleton.mp hmem] at hnew
      exact Constraint.entities_eq_nil hno hnew
  cases hd with
  | delete haction =>
    have hnothing : c.action = .add → c.DeclaresNothing := by
      rw [haction]
      rintro ⟨⟩
    simpa using hmerge hnothing
  | describe _ hnew hr _ =>
    have hread := entities_eq_nil_iff hr
    rw [Condition.entities, List.map_eq_nil_iff] at hread
    simp only [Option.mem_some_iff, forall_eq']
    rw [hread, and_iff_left_iff_imp]
    refine fun hnothing => hmerge fun _ b hb _ => ?_
    rw [hnew] at hb
    obtain rfl := Option.some.inj hb
    exact hnothing

/-- A constraint that is accepted and declares nothing. -/
theorem declares_nothing_iff_name :
    let source := "functionCall fc where fc.name == \"a\" ;"
    let c : Constraint :=
      { path := "fc.name", operator? := some "!=", value? := some "b", action := .add }
    ∃ q d, parse source = .ok q ∧ (Draft.mk (some q) none none).complete {} c = .ok d
      ∧ (∀ r ∈ d.reparsed?, r.queries = [])
      ∧ ∀ p, parse (merge {} source [c]) = .ok p → p.entities.Sublist q.entities := by
  intro source c
  obtain ⟨q, hq⟩ := Except.isOk_iff.mp (by decide +kernel : (parse source).isOk = true)
  have hcomplete : ((parse source).toOption.all fun q =>
      ((Draft.mk (some q) none none).complete {} c).isOk) = true := by
    decide +kernel
  have hclosed : c.IsClosed := by decide +kernel
  have htext : ∀ new ∈ c.condition?, ¬∃ op, .relOp op ∈ kinds new.render.toList := by
    decide +kernel
  rw [hq] at hcomplete
  obtain ⟨d, hd⟩ := Except.isOk_iff.mp (by simpa [Except.toOption] using hcomplete)
  refine ⟨q, d, hq, hd, (declares_nothing_iff hq hd fun _ => hclosed).mpr fun new hnew => ?_⟩
  obtain ⟨_, ⟨⟩, -, -, -, hd⟩ := complete_eq_ok_iff.mp hd
  cases hd with
  | delete _ => cases hnew
  | describe _ hcondition _ _ =>
    cases hnew
    exact htext _ hcondition

/-- A relation may begin in the path of a constraint that is accepted. -/
theorem declares_literal :
    let source := "functionCall fc where fc.name == \"a\" ;"
    let c : Constraint :=
      { path := "fc.arguments contain literal lit where lit.value", operator? := some "==",
        value? := some "1", action := .add }
    review {} source c = .accept
      ∧ (parse source).toOption.map Query.entities = some [⟨"functionCall", some "fc"⟩]
      ∧ (parse (merge {} source [c])).toOption.map Query.entities
        = some [⟨"functionCall", some "fc"⟩, ⟨"literal", some "lit"⟩] := by
  decide +kernel

end NodeQuery
