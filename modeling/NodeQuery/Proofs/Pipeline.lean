/-
From the review of constraints to the merge.

A review judges each constraint by itself, under the aliases of the query as it was; a merge
applies all of them at once. What is merged has no issue all the same, unless a deletion takes
away the declaration of an alias.

* `Constraint.IsFeasible.clean`: a constraint that is accepted describes a comparison that has no
  issue, wherever in the query it ends up.
* `respects_of_isFeasible`: nothing else is brought into the query.
* `validate_merge_accepted`: what is merged can be read, and has no issue.
-/
import NodeQuery.Proofs.Judging
import NodeQuery.Proofs.Validity

namespace NodeQuery

section Pipeline

variable {settings : Settings} {source : String} {q : Query} {c : Constraint}

/-- A constraint that can be carried out without a relation describes a comparison, and what is
read of it has no issue in the condition of any entity. -/
theorem Constraint.IsFeasible.clean (h : c.IsFeasible settings q) (hno : ¬ c.Relates)
    (haction : c.action ≠ .delete) :
    ∃ m, c.positiveCondition? = some (.value m) ∧ ∀ b, m.subject.LeadsTo b id → ∀ context,
      Clean (Validation.checkValue (Aliases.ofQuery q) context
        ⟨b, m.operator, Literal.escape m.value⟩) := by
  obtain ⟨new, hnew, r, hr, hissues⟩ := h.resolve_left haction
  obtain ⟨p, hp, hnew⟩ := Option.map_eq_some_iff.mp hnew
  obtain ⟨m, rfl⟩ := exists_value_of_not_relates hno hp
  refine ⟨m, hp, fun b hb => Validation.clean_checkValue_of_standalone ?_⟩
  have hreads := rereads_value hb m.operator m.value
  have hgrammar := Except.mem_toOption.mp hr
  have hclean := isValid_ofFindings.mp (List.isEmpty_iff.mpr hissues)
  -- what is read of the text is the comparison, with the sign around it
  cases hneg : c.isNegative with
  | false =>
    rw [hneg] at hnew
    subst hnew
    rw [Condition.eq_value_of_eraseSpans (hreads.eraseSpans_eq hgrammar)] at hclean
    exact hclean
  | true =>
    rw [hneg] at hnew
    subst hnew
    have herase := (rereads_negation hreads).eraseSpans_eq hgrammar
    cases r with
    | negation d =>
      rw [Condition.eraseSpans, Condition.negation.injEq] at herase
      rw [Condition.eq_value_of_eraseSpans herase] at hclean
      exact hclean
    | _ => simp [Condition.eraseSpans] at herase

theorem mem_edits {cs : List Constraint} {i : Nat} (h : c ∈ (changesAt q cs i).edits) :
    c ∈ cs ∧ c.action = .edit := by
  rw [changesAt, Changes.ofList, List.mem_filter, List.mem_filter] at h
  exact ⟨h.1.1, of_decide_eq_true h.2⟩

/-- Constraints that can be carried out without a relation bring in nothing but what has no issue
once it is read. -/
theorem respects_of_isFeasible {cs : List Constraint}
    (hcs : ∀ c ∈ cs, ¬ c.Relates ∧ c.IsFeasible settings q) (i : Nat) :
    (changesAt q cs i).Respects (Validation.demands settings (Aliases.ofQuery q)).reread := by
  have hdescribed : ∀ c ∈ cs, c.action ≠ .delete → ∃ m, c.positiveCondition? = some (.value m)
      ∧ ∀ b, m.subject.LeadsTo b id → ∀ context,
        Clean (Validation.checkValue (Aliases.ofQuery q) context
          ⟨b, m.operator, Literal.escape m.value⟩) :=
    fun c hc haction => (hcs c hc).2.clean (hcs c hc).1 haction
  constructor
  · intro c hc v hv e n _ hselects _ b hb
    obtain ⟨hmem, hedit⟩ := mem_edits hc
    obtain ⟨m, hm, hclean⟩ := hdescribed c hmem (by simp [hedit])
    obtain ⟨hvalue, hpath, hoperator⟩ := Constraint.eq_of_selectsValue hm hselects
    obtain rfl := Option.some.inj (hv.symm.trans hvalue)
    obtain ⟨text, -, htext⟩ := Option.bind_eq_some_iff.mp hv
    -- the new value is the one of the constraint, perhaps between quotes
    have hunquote : Literal.unquote
        (Literal.escape (Condition.carryQuotes n.value (Text.trim m.value)))
          = Literal.unquote (Literal.escape m.value) := by
      rw [Text.trim_of_trim? htext, Literal.unquote_escape_carryQuotes]
    refine (Validation.clean_checkValue_congr hunquote).mpr ?_
    show Clean (Validation.checkValue _ _ ⟨b, n.operator, Literal.escape m.value⟩)
    rw [hoperator]
    exact hclean b (hb.congr hpath.symm) _
  · intro c hc new hnew _ e _
    obtain ⟨hmem, -, hadd⟩ := mem_additions hc
    obtain ⟨m, hm, hclean⟩ := hdescribed c hmem (by simp [hadd])
    rw [Constraint.condition?, hm] at hnew
    obtain rfl := Option.some.inj hnew
    have hvalue : (Condition.value m).Meets
        (Validation.demands settings (Aliases.ofQuery q)).reread e := fun b hb => hclean b hb _
    split_ifs
    · exact hvalue
    · exact hvalue

/-- The placeholder speaks of the entity that it is about. -/
theorem meets_placeholder {aliases : Aliases} {e : Entity} (he : e.isPlain = true) :
    (Condition.placeholder e).Meets (Validation.demands settings aliases).reread e := by
  intro b hb
  obtain rfl := (Attribute.leadsTo_of_isPlain (Condition.isPlain_placeholder he)).unique hb
  have hresolve : (Validation.resolve? aliases (Validation.Context.ofEntity e)
      e.referenceName).isSome = true := by
    rw [Validation.resolve?_eq]
    cases aliases.typeOf? e.referenceName <;> simp [Validation.Context.ofEntity]
  obtain ⟨t, ht⟩ := Option.isSome_iff_exists.mp hresolve
  have hcheck : ∀ op v, Validation.checkValue aliases (Validation.Context.ofEntity e)
      ⟨.node e.referenceName, op, v⟩ = [] := by
    intro op v
    simp [Validation.checkValue, Attribute.node, Attribute.firstProperty?, ht]
  show Clean (Validation.checkValue aliases (Validation.Context.ofEntity e) _)
  rw [hcheck]
  exact clean_nil

/-- What is merged into a query without issues mirrors the query with the constraints applied,
if these can be carried out without relations, and then none of its parts has an issue under the
aliases of the query. -/
theorem meets_demands_of_mirrors {cs : List Constraint} {p : Condition} (hq : q.IsPlain)
    (hescaped : q.condition.escaped = q.condition)
    (hvalid : (validate settings q).isValid = true)
    (hcs : ∀ c ∈ cs, ¬ c.Relates ∧ c.IsFeasible settings q)
    (hp : (q.applyAll settings cs).condition.Mirrors p) :
    p.Meets (Validation.demands settings (Aliases.ofQuery q)) q.entity := by
  obtain ⟨-, hentity, hcondition⟩ := (Validation.isValid_validate_iff hq).mp hvalid
  refine hp.2 _ _ (Query.meets_applyAll ?_ (respects_of_isFeasible hcs) hentity ?_)
  · exact fun e he => meets_placeholder he.1
  · exact meets_reread_of_isPlain hq.2 hescaped hcondition

/-- Merging the constraints that a review accepts into a query without issues. As long as those
that are added leave no comment open and relate nothing to a nested query, the text can be read
just when it is not nested too deep; and what is read has no issue if nothing is deleted, or else
if every name in it stands for a node of the same type as before. -/
theorem validate_merge_accepted {cs kept : List Constraint} (hq : parse source = .ok q)
    (hvalid : (validate settings q).isValid = true)
    (hkept : kept = (reviewAll settings source cs).accepted cs)
    (hadded : ∀ c, Added q kept c → c.IsClosed ∧ c.DeclaresNothing) :
    ((∃ p, parse (merge settings source kept) = .ok p)
      ↔ (q.applyAll settings kept).condition.levels ≤ Parser.maxNesting)
      ∧ ∀ p, parse (merge settings source kept) = .ok p →
        ((∀ c ∈ kept, c.action ≠ .delete)
          ∨ p.condition.WellFormed fun a =>
              (Aliases.ofQuery p).typeOf? a.name = (Aliases.ofQuery q).typeOf? a.name) →
          (validate settings p).isValid = true := by
  have hmerge := parse_merge_of_isClosed settings hq fun c hc => (hadded c hc).1
  refine ⟨hmerge.1, fun p hp hnames => ?_⟩
  obtain rfl | ⟨hentity, hmirrors⟩ := hmerge.2 p hp fun c hc => (hadded c hc).2
  · exact hvalid
  · obtain ⟨hplain, -, hescaped⟩ := tidy_of_parse hq
    obtain ⟨hplain', -, -⟩ := tidy_of_parse hp
    have hfeasible : ∀ c ∈ kept, ¬ c.Relates ∧ c.IsFeasible settings q := by
      intro c hc
      rw [hkept, accepted_reviewAll, List.mem_filter, decide_eq_true_iff,
        Constraint.isAcceptable_iff hq] at hc
      exact hc.2.2.2
    -- no constraint with a relation for an operator is accepted
    have hnothing : ∀ i, (changesAt q kept i).DeclareNothing := fun i c hc new hnew _ =>
      Constraint.entities_eq_nil (hfeasible c (mem_additions hc).1).1 hnew
    have hentities : p.entities = (q.applyAll settings kept).entities :=
      Query.entities_of_mirrors hentity hmirrors
    have hmeets := meets_demands_of_mirrors hplain (congrArg Query.condition hescaped) hvalid
      hfeasible hmirrors
    rw [Condition.meets_eraseSpans, ← hentity] at hmeets
    refine Validation.validate_of_sublist hplain' hplain hvalid hentity ?_ hmeets ?_
    · rw [hentities]
      exact Query.entities_applyAll hnothing
    · rcases hnames with hdelete | hnames
      · refine wellFormed_typeOf?_of_entities_eq hplain' ?_
        rw [hentities, Query.entities_applyAll_eq hnothing hdelete]
      · exact hnames

end Pipeline

/-- A review that leaves constraints of all three actions. -/
theorem validate_merge_accepted_all :
    let source := "functionCall fc where or(fc.name == \"a\", fc.name == \"b\") ;"
    let other : Constraint :=
      { path := "x.name", operator? := some "==", value? := some "b", action := .add }
    let added : Constraint :=
      { path := "fc.name", operator? := some "!=", value? := some "d", action := .add }
    let kept : List Constraint :=
      [{ path := "fc.name", former? := some "a", action := .delete },
        { path := "fc.name", operator? := some "==", value? := some "c", action := .edit }, added]
    (reviewAll {} source (other :: kept)).accepted (other :: kept) = kept
      ∧ ∃ p, parse (merge {} source kept) = .ok p ∧ (validate {} p).isValid = true := by
  intro source other added kept
  have hkept : (reviewAll {} source (other :: kept)).accepted (other :: kept) = kept := by
    decide +kernel
  have hsource : ((parse source).toOption.any fun q => (validate {} q).isValid
      && decide ((q.applyAll {} kept).condition.levels ≤ Parser.maxNesting)) = true := by
    decide +kernel
  have hentities : (parse (merge {} source kept)).toOption.map Query.entities
      = (parse source).toOption.map Query.entities := by
    decide +kernel
  have hclosed : added.IsClosed ∧ added.DeclaresNothing := by decide +kernel
  refine ⟨hkept, ?_⟩
  obtain ⟨q, hq⟩ := Except.isOk_iff.mp (by decide +kernel : (parse source).isOk = true)
  rw [hq] at hsource hentities
  simp only [Except.toOption, Option.any_some, Bool.and_eq_true, decide_eq_true_eq] at hsource
  have hadded : ∀ c, Added q kept c → c.IsClosed ∧ c.DeclaresNothing := by
    rintro c ⟨hmem, -, hadd⟩
    simp only [kept, List.mem_cons, List.not_mem_nil, or_false] at hmem
    rcases hmem with rfl | rfl | rfl
    · cases hadd
    · cases hadd
    · exact hclosed
  obtain ⟨hparse, hvalid⟩ := validate_merge_accepted hq hsource.1 hkept.symm hadded
  obtain ⟨p, hp⟩ := hparse.mpr hsource.2
  rw [hp] at hentities
  have hentities : p.entities = q.entities := Option.some.inj hentities
  refine ⟨p, hp, hvalid p hp (.inr ?_)⟩
  exact wellFormed_typeOf?_of_entities_eq (tidy_of_parse hp).1 hentities

/-- A deletion that is accepted takes away a declaration that another condition needs. -/
theorem validate_merge_deletion :
    let source := "functionCall fc where and(fc.arguments contain literal lit, lit.value == 1) ;"
    let c : Constraint := { path := "fc.arguments", action := .delete }
    (parse source).toOption.map (fun q => (validate {} q).isValid) = some true
      ∧ (reviewAll {} source [c]).accepted [c] = [c]
      ∧ (parse (merge {} source [c])).toOption.map (fun p => (validate {} p).issues)
        = some [Issue.ofMissingAlias "lit"] := by
  decide +kernel

end NodeQuery
