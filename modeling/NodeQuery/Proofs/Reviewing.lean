/-
What a review says of a constraint.

The rules of the chain are checked one after the other, and what one has worked out goes on to those
behind it. What all of them ask for together is said here without the chain. Only the rule on the
operator has a constraint discarded, and it is checked once those on the alias have been kept.

* `Constraint.IsAcceptable`: the constraints that can be merged into the query of a text.
* `Constraint.Completes`: what is known of a constraint that can be carried out.
* `Rule.checkPath_eq_ok_iff`, …, `Rule.checkSemantics_eq_ok_iff`: what each rule asks for.
* `complete_eq`, `complete_eq_ok_iff`: the chain, cut around the rule on the operator, and what it
  comes to.
* `Rule.of_check_eq_error`, `discard_of_complete_eq_error`: what the chain stops with, if it stops.
* `review_eq_accept_iff`, `discard_review_iff`: the verdict on a constraint.
-/
import NodeQuery.Constraint.Review
import NodeQuery.Proofs.Selecting
import NodeQuery.Proofs.Targeting

namespace NodeQuery

/-! ### Acceptable constraints -/

/-- Some entity in the query has the alias `name`. -/
def Query.Declares (q : Query) (name : String) : Prop :=
  ∃ p ∈ q.queries, p.entity.alias? = some name

namespace Constraint

/-- The operator relates to a nested query, in any case and with blanks around it. -/
def Relates (c : Constraint) : Prop :=
  ∃ text ∈ c.operator?, ∃ op ∈ RelOp.all, Text.sameWord (Text.trim text) op.spelling = true

/-- The constraint is a deletion, or describes a condition that is read again of its text, without
an issue in the query. -/
def IsFeasible (settings : Settings) (q : Query) (c : Constraint) : Prop :=
  c.action = .delete ∨ ∃ new ∈ c.condition?, ∃ r ∈ (parseCondition new.render).toOption,
    (validateCondition settings (Aliases.ofQuery q) r).issues = []

/-- The text is that of a query, and the constraint aims at an alias of it without a relation, and
can be carried out. -/
def IsAcceptable (settings : Settings) (source : String) (c : Constraint) : Prop :=
  ∃ q ∈ (parse source).toOption, c.leadingAlias ≠ "" ∧ q.Declares c.leadingAlias ∧ ¬ c.Relates
    ∧ c.IsFeasible settings q

end Constraint

instance (q : Query) (name : String) : Decidable (q.Declares name) :=
  inferInstanceAs (Decidable (∃ p ∈ q.queries, p.entity.alias? = some name))

namespace Constraint

instance (c : Constraint) : Decidable c.Relates :=
  inferInstanceAs (Decidable (∃ text ∈ c.operator?, ∃ op ∈ RelOp.all,
    Text.sameWord (Text.trim text) op.spelling = true))

instance (settings : Settings) (q : Query) (c : Constraint) :
    Decidable (c.IsFeasible settings q) :=
  inferInstanceAs (Decidable (_ ∨ _))

instance (settings : Settings) (source : String) (c : Constraint) :
    Decidable (c.IsAcceptable settings source) :=
  inferInstanceAs (Decidable (∃ q ∈ (parse source).toOption, c.leadingAlias ≠ ""
    ∧ q.Declares c.leadingAlias ∧ ¬ c.Relates ∧ c.IsFeasible settings q))

variable {settings : Settings} {source : String} {q : Query} {c : Constraint}

theorem relates_iff :
    c.Relates ↔ ∃ text, c.operatorText? = some text ∧ (RelOp.ofText? text).isSome = true := by
  rw [Relates, operatorText?]
  cases hraw : c.operator? with
  | none => simp
  | some raw =>
    simp only [Option.mem_some_iff, exists_eq_left', Option.bind_some]
    by_cases hblank : Text.trim raw = ""
    · -- no relation is written as nothing
      have hnone : Text.trim? raw = none := by simp [Text.trim?, hblank]
      rw [hblank, hnone]
      decide
    · have htext : Text.trim? raw = some (Text.trim raw) := by simp [Text.trim?, hblank]
      rw [htext]
      simp only [Option.some.injEq, exists_eq_left', RelOp.ofText?, Text.trim_of_trim? htext,
        List.find?_isSome]

/-- What a constraint without a relation describes is a comparison. -/
theorem exists_value_of_not_relates {new : Condition} (hno : ¬ c.Relates)
    (hnew : c.positiveCondition? = some new) : ∃ m, new = .value m := by
  obtain ⟨a, text, v, -, htext, -, ⟨op, q, hop, -, -⟩ | ⟨op, -, -, rfl⟩⟩ :=
    positiveCondition?_eq_some hnew
  · exact absurd (relates_iff.mpr ⟨text, htext, by rw [hop]; rfl⟩) hno
  · exact ⟨_, rfl⟩

/-- A blank path names no alias. -/
theorem leadingAlias_of_trim_path (h : Text.trim c.path = "") : c.leadingAlias = "" := by
  have hblank : ∀ d ∈ c.path.toList, Text.isBlank d = true :=
    Text.isBlank_of_trimChars_eq_nil (String.ofList_eq_empty_iff.mp h)
  have hdot : '.' ∉ c.path.toList := fun hd => absurd (hblank '.' hd) (by decide)
  rw [leadingAlias, Text.segments_of_not_mem hdot, List.headD_cons, String.ofList_toList, h]

/-- What is known in the end of a constraint that can be carried out: nothing of a deletion, and
otherwise the condition that it describes and what is read of its text. -/
inductive Completes (settings : Settings) (q : Query) (c : Constraint) : Draft → Prop where
  | delete (action : c.action = .delete) : Completes settings q c ⟨some q, none, none⟩
  | describe {new r : Condition} (action : c.action ≠ .delete) (condition : c.condition? = some new)
      (grammar : parseCondition new.render = .ok r)
      (semantics : (validateCondition settings (Aliases.ofQuery q) r).issues = []) :
      Completes settings q c ⟨some q, some new, some r⟩

theorem isFeasible_iff : c.IsFeasible settings q ↔ ∃ d, c.Completes settings q d := by
  constructor
  · intro h
    by_cases haction : c.action = .delete
    · exact ⟨_, .delete haction⟩
    · obtain ⟨new, hnew, r, hr, hissues⟩ := h.resolve_left haction
      exact ⟨_, .describe haction hnew (Except.mem_toOption.mp hr) hissues⟩
  · rintro ⟨d, haction | ⟨-, hnew, hr, hissues⟩⟩
    · exact .inl haction
    · exact .inr ⟨_, hnew, _, Except.mem_toOption.mpr hr, hissues⟩

theorem isAcceptable_iff (hq : parse source = .ok q) : c.IsAcceptable settings source
    ↔ c.leadingAlias ≠ "" ∧ q.Declares c.leadingAlias ∧ ¬ c.Relates ∧ c.IsFeasible settings q := by
  rw [IsAcceptable, hq]
  simp [Except.toOption]

end Constraint

/-! ### The chain of rules -/

section Chain

variable {settings : Settings} {q : Query} {query? : Option Query} {c : Constraint} {d e : Draft}

namespace Rule

theorem checkPath_eq_ok_iff : checkPath c d = .ok e ↔ c.leadingAlias ≠ "" ∧ e = d := by
  rw [checkPath]
  split_ifs with hpath hname
  · simp [Constraint.leadingAlias_of_trim_path hpath]
  · simp [hname]
  · simp [hname, @eq_comm _ e d]

theorem checkAlias_eq_ok_iff :
    checkAlias c d = .ok e ↔ (∃ q ∈ d.query?, q.Declares c.leadingAlias) ∧ e = d := by
  cases hq : d.query? with
  | none =>
    rw [checkAlias, hq]
    simp
  | some q =>
    have hdeclares : q.Declares c.leadingAlias
        ↔ (Aliases.ofQuery q).contains c.leadingAlias = true := Aliases.contains_ofQuery_iff.symm
    rw [checkAlias, hq]
    simp only [Option.mem_some_iff, exists_eq_left', hdeclares]
    split_ifs with hcontains
    · simp [hcontains, @eq_comm _ e d]
    · simp [hcontains]

theorem checkOperator_eq_ok_iff : checkOperator c d = .ok e ↔ ¬ c.Relates ∧ e = d := by
  rw [Constraint.relates_iff, checkOperator]
  cases htext : c.operatorText? with
  | none => simp [@eq_comm _ e d]
  | some text =>
    simp only [Option.some.injEq, exists_eq_left', Bool.not_eq_true, Option.isSome_eq_false_iff]
    split_ifs with hop
    · simp [hop, @eq_comm _ e d]
    · simp [hop]

theorem checkConversion_eq_ok_iff : checkConversion c d = .ok e
    ↔ (c.action = .delete ∧ e = d) ∨ ∃ new, c.action ≠ .delete ∧ c.condition? = some new
      ∧ e = { d with condition? := some new } := by
  rw [checkConversion]
  split_ifs with hdelete
  · simp [hdelete, eq_comm]
  · cases hnew : c.condition? with
    | none => simp [hdelete]
    | some new => simp [hdelete, eq_comm]

theorem checkGrammar_eq_ok_iff {new : Condition} (hd : d.condition? = some new) :
    checkGrammar d = .ok e
      ↔ ∃ r, parseCondition new.render = .ok r ∧ e = { d with reparsed? := some r } := by
  rw [checkGrammar, hd]
  cases hr : parseCondition new.render with
  | error errors => simp [hr]
  | ok r => simp [hr, eq_comm]

theorem checkSemantics_eq_ok_iff {r : Condition} (hq : d.query? = some q)
    (hd : d.reparsed? = some r) : checkSemantics settings d = .ok e
      ↔ (validateCondition settings (Aliases.ofQuery q) r).issues = [] ∧ e = d := by
  rw [checkSemantics, hq, hd]
  simp only [Report.isValid, List.isEmpty_iff]
  split_ifs with hissues
  · simp [hissues, @eq_comm _ e d]
  · simp [hissues]

end Rule

/-- The first two rules ask for an alias that the query declares. -/
theorem foldlM_naming_eq_ok_iff :
    [Rule.pathFormat, .aliasExists].foldlM (fun d rule => rule.check settings c d) d = .ok e
      ↔ c.leadingAlias ≠ "" ∧ (∃ q ∈ d.query?, q.Declares c.leadingAlias) ∧ e = d := by
  simp only [List.foldlM_cons, List.foldlM_nil, Rule.check, Except.bind_eq_ok]
  constructor
  · rintro ⟨d₁, h₁, d₂, h₂, ⟨⟩⟩
    obtain ⟨hname, rfl⟩ := Rule.checkPath_eq_ok_iff.mp h₁
    exact ⟨hname, Rule.checkAlias_eq_ok_iff.mp h₂⟩
  · rintro ⟨hname, hdeclares, rfl⟩
    exact ⟨e, Rule.checkPath_eq_ok_iff.mpr ⟨hname, rfl⟩, e,
      Rule.checkAlias_eq_ok_iff.mpr ⟨hdeclares, rfl⟩, rfl⟩

/-- The last three rules ask for a condition that can be put into the query. -/
theorem foldlM_feasible_eq_ok_iff :
    [Rule.conversion, .grammar, .semantics].foldlM (fun d rule => rule.check settings c d)
        (Draft.mk (some q) none none) = .ok d ↔ c.Completes settings q d := by
  simp only [List.foldlM_cons, List.foldlM_nil, Rule.check, Except.bind_eq_ok]
  constructor
  · rintro ⟨d₁, h₁, d₂, h₂, d₃, h₃, ⟨⟩⟩
    obtain ⟨haction, rfl⟩ | ⟨new, haction, hnew, rfl⟩ := Rule.checkConversion_eq_ok_iff.mp h₁
    · -- without a condition, there is nothing to check
      cases h₂
      cases h₃
      exact .delete haction
    · obtain ⟨r, hr, rfl⟩ := (Rule.checkGrammar_eq_ok_iff rfl).mp h₂
      obtain ⟨hissues, rfl⟩ := (Rule.checkSemantics_eq_ok_iff rfl rfl).mp h₃
      exact .describe haction hnew hr hissues
  · rintro (haction | ⟨haction, hnew, hr, hissues⟩)
    · exact ⟨_, Rule.checkConversion_eq_ok_iff.mpr (.inl ⟨haction, rfl⟩), _, rfl, _, rfl, rfl⟩
    · exact ⟨_, Rule.checkConversion_eq_ok_iff.mpr (.inr ⟨_, haction, hnew, rfl⟩),
        _, (Rule.checkGrammar_eq_ok_iff rfl).mpr ⟨_, hr, rfl⟩,
        _, (Rule.checkSemantics_eq_ok_iff rfl rfl).mpr ⟨hissues, rfl⟩, rfl⟩

/-- The chain is cut around the rule on the operator. -/
theorem complete_eq (d : Draft) :
    d.complete settings c
      = [Rule.pathFormat, .aliasExists].foldlM (fun d rule => rule.check settings c d) d
        >>= fun d => Rule.checkOperator c d
        >>= [Rule.conversion, .grammar, .semantics].foldlM
          fun d rule => rule.check settings c d := by
  rw [Draft.complete, Rule.chain]
  simp only [List.foldlM_cons, List.foldlM_nil, Rule.check, bind_assoc, pure_bind]

/-- A constraint keeps all rules just if it aims at an alias of the query without a relation, and
can be carried out. -/
theorem complete_eq_ok_iff : (Draft.mk query? none none).complete settings c = .ok d
    ↔ ∃ q ∈ query?, c.leadingAlias ≠ "" ∧ q.Declares c.leadingAlias ∧ ¬ c.Relates
      ∧ c.Completes settings q d := by
  simp only [complete_eq, Except.bind_eq_ok, foldlM_naming_eq_ok_iff, Rule.checkOperator_eq_ok_iff]
  constructor
  · rintro ⟨_, ⟨hname, ⟨q, rfl, hdeclares⟩, rfl⟩, _, ⟨hno, rfl⟩, hd⟩
    exact ⟨q, rfl, hname, hdeclares, hno, foldlM_feasible_eq_ok_iff.mp hd⟩
  · rintro ⟨q, rfl, hname, hdeclares, hno, hd⟩
    exact ⟨_, ⟨hname, ⟨q, rfl, hdeclares⟩, rfl⟩, _, ⟨hno, rfl⟩, foldlM_feasible_eq_ok_iff.mpr hd⟩

end Chain

/-! ### Broken rules -/

section Broken

variable {settings : Settings} {query? : Option Query} {c : Constraint} {d : Draft} {v : Verdict}
  {rules : List Rule}

/-- A rule that is broken leaves an issue, and only the rule on the operator has the constraint
discarded. -/
theorem Rule.of_check_eq_error {rule : Rule} (h : rule.check settings c d = .error v) :
    v.report.isValid = false ∧ (v.discard = true ↔ rule = .noSubQueryOperator) := by
  cases rule with
  | pathFormat =>
    rw [check, checkPath] at h
    split_ifs at h
    all_goals
      cases h
      exact ⟨rfl, by simp [Verdict.reject]⟩
  | aliasExists =>
    rw [check, checkAlias] at h
    split at h
    · cases h
      exact ⟨rfl, by simp [Verdict.reject]⟩
    · simp only at h
      split_ifs at h
      all_goals
        cases h
        exact ⟨rfl, by simp [Verdict.reject]⟩
  | noSubQueryOperator =>
    rw [check, checkOperator] at h
    split at h
    · cases h
    · split_ifs at h
      cases h
      exact ⟨rfl, by simp⟩
  | conversion =>
    rw [check, checkConversion] at h
    split_ifs at h
    split at h
    · cases h
    · cases h
      exact ⟨rfl, by simp [Verdict.reject]⟩
  | grammar =>
    rw [check, checkGrammar] at h
    split at h
    · cases h
    · split at h
      · cases h
      · cases h
        exact ⟨rfl, by simp [Verdict.reject]⟩
  | semantics =>
    rw [check, checkSemantics] at h
    split at h
    · simp only at h
      split_ifs at h with hvalid
      cases h
      exact ⟨by simpa using hvalid, by simp⟩
    · cases h

/-- If the chain stops, it stops at a rule that is broken. -/
theorem exists_broken_rule
    (h : rules.foldlM (fun d rule => rule.check settings c d) d = .error v) :
    ∃ rule ∈ rules, ∃ e, rule.check settings c e = .error v := by
  induction rules generalizing d with
  | nil => cases h
  | cons rule rules ih =>
    rw [List.foldlM_cons] at h
    cases hcheck : rule.check settings c d with
    | error w =>
      rw [hcheck] at h
      cases h
      exact ⟨rule, List.mem_cons_self .., d, hcheck⟩
    | ok e =>
      rw [hcheck] at h
      obtain ⟨broken, hmem, hbroken⟩ := ih h
      exact ⟨broken, List.mem_cons_of_mem rule hmem, hbroken⟩

theorem isValid_of_foldlM_eq_error
    (h : rules.foldlM (fun d rule => rule.check settings c d) d = .error v) :
    v.report.isValid = false := by
  obtain ⟨rule, -, e, hbroken⟩ := exists_broken_rule h
  exact (Rule.of_check_eq_error hbroken).1

/-- A chain that has no rule on the operator has no constraint discarded. -/
theorem discard_of_foldlM_eq_error (hrules : .noSubQueryOperator ∉ rules)
    (h : rules.foldlM (fun d rule => rule.check settings c d) d = .error v) :
    ¬ v.discard = true := by
  obtain ⟨rule, hmem, e, hbroken⟩ := exists_broken_rule h
  rw [(Rule.of_check_eq_error hbroken).2]
  rintro rfl
  exact hrules hmem

/-- A constraint is discarded just if it aims at an alias of the query, and relates to a nested
query. -/
theorem discard_of_complete_eq_error
    (h : (Draft.mk query? none none).complete settings c = .error v) :
    v.discard = true
      ↔ c.leadingAlias ≠ "" ∧ (∃ q ∈ query?, q.Declares c.leadingAlias) ∧ c.Relates := by
  rw [complete_eq] at h
  cases hnaming : [Rule.pathFormat, .aliasExists].foldlM
      (fun d rule => rule.check settings c d) (Draft.mk query? none none) with
  | error w =>
    rw [hnaming] at h
    cases h
    refine iff_of_false (discard_of_foldlM_eq_error (by decide) hnaming) ?_
    rintro ⟨hname, hdeclares, -⟩
    rw [foldlM_naming_eq_ok_iff.mpr ⟨hname, hdeclares, rfl⟩] at hnaming
    cases hnaming
  | ok d =>
    rw [hnaming] at h
    obtain ⟨hname, hdeclares, rfl⟩ := foldlM_naming_eq_ok_iff.mp hnaming
    rw [and_iff_right hname, and_iff_right hdeclares]
    cases hoperator : Rule.checkOperator c ⟨query?, none, none⟩ with
    | error w =>
      rw [Except.ok_bind, hoperator] at h
      cases h
      have hbroken : Rule.noSubQueryOperator.check settings c ⟨query?, none, none⟩ = .error v :=
        hoperator
      refine iff_of_true ((Rule.of_check_eq_error hbroken).2.mpr rfl) ?_
      by_contra hno
      rw [Rule.checkOperator_eq_ok_iff.mpr ⟨hno, rfl⟩] at hoperator
      cases hoperator
    | ok e =>
      rw [Except.ok_bind, hoperator] at h
      exact iff_of_false (discard_of_foldlM_eq_error (by decide) h)
        (Rule.checkOperator_eq_ok_iff.mp hoperator).1

end Broken

/-! ### Verdicts -/

section Verdicts

variable {settings : Settings} {source : String} {c : Constraint}

/-- The constraints that keep all rules are the acceptable ones. -/
theorem exists_complete_eq_ok_iff :
    (∃ d, (Draft.mk (parse source).toOption none none).complete settings c = .ok d)
      ↔ c.IsAcceptable settings source := by
  simp only [complete_eq_ok_iff, Constraint.IsAcceptable, Constraint.isFeasible_iff]
  constructor
  · rintro ⟨d, q, hq, hname, hdeclares, hno, hd⟩
    exact ⟨q, hq, hname, hdeclares, hno, d, hd⟩
  · rintro ⟨q, hq, hname, hdeclares, hno, d, hd⟩
    exact ⟨d, q, hq, hname, hdeclares, hno, hd⟩

theorem isValid_review_iff :
    (review settings source c).report.isValid = true ↔ c.IsAcceptable settings source := by
  rw [← exists_complete_eq_ok_iff, review, reviewFor]
  cases h : (Draft.mk (parse source).toOption none none).complete settings c with
  | ok d => simp [Verdict.accept, Report.isValid]
  | error v =>
    have hv : v.report.isValid = false := isValid_of_foldlM_eq_error h
    simp [hv]

theorem review_eq_accept_iff :
    review settings source c = .accept ↔ c.IsAcceptable settings source := by
  rw [← isValid_review_iff]
  constructor
  · intro h
    rw [h]
    rfl
  · intro h
    obtain ⟨d, hd⟩ := exists_complete_eq_ok_iff.mpr (isValid_review_iff.mp h)
    rw [review, reviewFor, hd]

theorem discard_review_iff :
    (review settings source c).discard = true
      ↔ (∃ q ∈ (parse source).toOption, q.Declares c.leadingAlias) ∧ c.Relates := by
  rw [review, reviewFor]
  cases h : (Draft.mk (parse source).toOption none none).complete settings c with
  | ok e =>
    obtain ⟨q, -, -, -, hno, -⟩ := complete_eq_ok_iff.mp h
    exact iff_of_false Bool.false_ne_true fun hdiscard => hno hdiscard.2
  | error v =>
    refine (discard_of_complete_eq_error h).trans (and_iff_right_of_imp ?_)
    -- no entity has the empty alias
    rintro ⟨⟨q, hq, hdeclares⟩, -⟩ hempty
    rw [hempty, Query.Declares, ← Aliases.contains_ofQuery_iff,
      contains_empty_of_parse (Except.mem_toOption.mp hq)] at hdeclares
    cases hdeclares

end Verdicts

end NodeQuery
