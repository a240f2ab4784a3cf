/-
What a report says of each leaf.

A query is checked leaf by leaf, at all depths, and a leaf is checked under the entity on which
its condition is. It has no issue of its own apart from one: that its name stands for nothing, or
else that its first property cannot be evaluated on the node for which the name stands, or else
that a node type should be asked for in the place of its value.

* `Query.occurrences`: the leaves in a query, each relation in front of those inside it.
* `Query.LeavesOpen`, `Query.typeAt`: for which type of node the name of a leaf stands.
* `Validation.checkCondition_eq`: a condition is checked leaf by leaf.
* `Occurrence.issues_eq`: the issue of a leaf.
* `issues_validate`: all issues of a query.
-/
import NodeQuery.Proofs.Validity

namespace NodeQuery

/-! ### The leaves in a query -/

/-- A leaf of a condition, and the entity on which the condition is. -/
structure Occurrence where
  host : Entity
  atomic : Atomic

/-- The name of which the leaf speaks. -/
def Occurrence.name (o : Occurrence) : String :=
  o.atomic.subject.name

namespace Condition

mutual

/-- The leaves in a condition on an entity, at all depths. Those of a nested query, which are on
the entity that it declares, come behind the relation in which it is nested. -/
def occurrences (host : Entity) : Condition → List Occurrence
  | value m => [⟨host, .value m⟩]
  | relation a op e c spans => ⟨host, .relation a op ⟨e, c, spans⟩⟩ :: c.occurrences e
  | negation c => c.occurrences host
  | group _ cs => occurrencesOfAll host cs

/-- The leaves in conditions on an entity, one condition after the other. -/
def occurrencesOfAll (host : Entity) : List Condition → List Occurrence
  | [] => []
  | c :: cs => c.occurrences host ++ occurrencesOfAll host cs

end

theorem occurrencesOfAll_eq_flatMap (host : Entity) (cs : List Condition) :
    occurrencesOfAll host cs = cs.flatMap (occurrences host) := by
  induction cs with
  | nil => rfl
  | cons c cs ih => rw [occurrencesOfAll, ih, List.flatMap_cons]

theorem mem_occurrences {c : Condition} {host : Entity} {o : Occurrence} :
    o ∈ c.occurrences host ↔ host = o.host ∧ o.atomic ∈ c.atomics
      ∨ ∃ p ∈ c.queries, p.entity = o.host ∧ o.atomic ∈ p.condition.atomics := by
  obtain ⟨d, l⟩ := o
  induction c generalizing host with
  | value m => simp [occurrences, atomics, queries, eq_comm]
  | relation a op e c spans ih =>
    rw [occurrences, List.mem_cons, ih, atomics, queries, List.mem_singleton]
    simp only [Occurrence.mk.injEq, List.mem_cons, exists_eq_or_imp, eq_comm]
  | negation c ih => exact ih
  | group k cs ih =>
    rw [occurrences, occurrencesOfAll_eq_flatMap, atomics, atomicsOfAll_eq_flatMap, queries,
      queriesOfAll_eq_flatMap]
    simp only [List.mem_flatMap]
    constructor
    · rintro ⟨c, hc, ho⟩
      obtain ⟨hhost, hl⟩ | ⟨p, hp, hhost, hl⟩ := (ih c hc).mp ho
      · exact .inl ⟨hhost, c, hc, hl⟩
      · exact .inr ⟨p, ⟨c, hc, hp⟩, hhost, hl⟩
    · rintro (⟨hhost, c, hc, hl⟩ | ⟨p, ⟨c, hc, hp⟩, hhost, hl⟩)
      · exact ⟨c, hc, (ih c hc).mpr (.inl ⟨hhost, hl⟩)⟩
      · exact ⟨c, hc, (ih c hc).mpr (.inr ⟨p, hp, hhost, hl⟩)⟩

end Condition

namespace Query

variable {q : Query} {o : Occurrence}

/-- The leaves in a query, at all depths. -/
def occurrences (q : Query) : List Occurrence :=
  q.condition.occurrences q.entity

/-- The leaves in a query are those of its condition and of the conditions of all queries nested
in it. -/
theorem mem_occurrences :
    o ∈ q.occurrences ↔ ∃ p ∈ q.queries, p.entity = o.host ∧ o.atomic ∈ p.condition.atomics := by
  rw [occurrences, Condition.mem_occurrences, queries]
  simp only [List.mem_cons, exists_eq_or_imp]

/-! ### The names of leaves -/

/-- The name of a leaf stands for nothing: no query in `q` declares it, and the entity that the
condition is on has another name. -/
def LeavesOpen (q : Query) (o : Occurrence) : Prop :=
  (∀ p ∈ q.queries, p.entity.alias? ≠ some o.name) ∧ o.name ≠ o.host.referenceName

instance (q : Query) : DecidablePred q.LeavesOpen :=
  fun _ => inferInstanceAs (Decidable (_ ∧ _))

/-- The type of the node for which the name of a leaf stands: that of the last entity which is
declared under the name, or else of the entity that the condition is on. -/
def typeAt (q : Query) (o : Occurrence) : String :=
  ((q.entities.reverse.find? fun e => e.alias? = some o.name).getD o.host).nodeType

theorem resolve?_eq (q : Query) (o : Occurrence) :
    Validation.resolve? (Aliases.ofQuery q) (Validation.Context.ofEntity o.host) o.name
      = if q.LeavesOpen o then none else some (q.typeAt o) := by
  rw [Validation.resolve?_eq, typeOf?_ofQuery, typeAt]
  cases hfind : q.entities.reverse.find? fun e => e.alias? = some o.name with
  | none =>
    have hnone : ∀ p ∈ q.queries, p.entity.alias? ≠ some o.name := by
      simpa [entities] using hfind
    have hopen : q.LeavesOpen o ↔ ¬o.host.referenceName = o.name :=
      (and_iff_right hnone).trans ne_comm
    simp [hopen, Validation.Context.ofEntity]
  | some e =>
    have hdeclared : ¬q.LeavesOpen o := by
      rintro ⟨hnone, -⟩
      obtain ⟨p, hp, rfl⟩ := List.mem_map.mp (List.mem_reverse.mp (List.mem_of_find?_eq_some hfind))
      exact hnone p hp (by simpa using List.find?_some hfind)
    simp [hdeclared]

end Query

/-! ### The findings about a leaf -/

/-- The issue of an entity that is declared, if it has a type that no node has. -/
def Entity.issues (settings : Settings) (e : Entity) : List Issue :=
  if e.nodeType ∈ Schema.nodeTypes then []
  else [Issue.ofNodeType settings.nodeTypeSample e.nodeType]

namespace Occurrence

/-- The findings about a leaf itself, not those in the query that is nested in it. -/
def findings (aliases : Aliases) (o : Occurrence) : List Finding :=
  match o.atomic with
  | .value m => Validation.checkValue aliases (Validation.Context.ofEntity o.host) m
  | .relation a _ _ => Validation.checkRelation aliases (Validation.Context.ofEntity o.host) a

/-- The issues of a leaf itself under the aliases of a query. -/
def issues (q : Query) (o : Occurrence) : List Issue :=
  (o.findings (Aliases.ofQuery q)).filterMap Finding.issue?

/-- The issues of the entity that is declared in a leaf, if it is a relation. -/
def entityIssues (settings : Settings) (o : Occurrence) : List Issue :=
  o.atomic.query?.toList.flatMap fun p => p.entity.issues settings

end Occurrence

namespace Atomic

/-- The issue of a leaf whose property cannot be evaluated on nodes of type `target`. -/
def unsupported (l : Atomic) (target property : String) : Issue :=
  match l with
  | value m => Issue.ofUnsupportedValue m target property
  | relation a _ _ => Issue.ofUnsupportedRelation a target property

/-- The issue of a leaf that compares a property with a value in whose place a node type should be
asked for. -/
def hint? (l : Atomic) (property : String) : Option Issue :=
  match l with
  | value m =>
    if m.operator = .is ∧ Schema.isNodeType (Literal.unquote m.value) = true then none
    else (Schema.valueHint? property (Literal.unquote m.value)).map (Issue.ofHintedValue m property)
  | relation .. => none

end Atomic

/-- The issue of a leaf itself, if it has one. -/
def Query.issueAt? (q : Query) (o : Occurrence) : Option Issue :=
  if q.LeavesOpen o then some (.ofMissingAlias o.name)
  else o.atomic.subject.firstProperty?.bind fun property =>
    if (q.typeAt o, property) ∈ Schema.unsupportedPaths then
      some (o.atomic.unsupported (q.typeAt o) property)
    else o.atomic.hint? property

namespace Validation

variable {settings : Settings} {aliases : Aliases}

theorem checkAll_eq_flatMap (context : Context) (cs : List Condition) :
    checkAll settings aliases context cs
      = cs.flatMap (checkCondition settings aliases context) := by
  induction cs with
  | nil => rfl
  | cons c cs ih => rw [checkAll, ih, List.flatMap_cons]

theorem checkEntity_eq (e : Entity) :
    checkEntity settings e = (e.issues settings).map Finding.issue := by
  simp only [checkEntity, Entity.issues, Schema.isNodeType, List.contains_iff_mem]
  split_ifs <;> rfl

/-- The findings about a leaf, and behind them those about the entity that is declared in it. -/
def checkLeaf (settings : Settings) (aliases : Aliases) (o : Occurrence) : List Finding :=
  o.findings aliases ++ (o.entityIssues settings).map Finding.issue

/-- A condition is checked leaf by leaf. -/
theorem checkCondition_eq (c : Condition) (host : Entity) :
    checkCondition settings aliases (Context.ofEntity host) c
      = (c.occurrences host).flatMap (checkLeaf settings aliases) := by
  induction c generalizing host with
  | value m =>
    simp [checkCondition, Condition.occurrences, checkLeaf, Occurrence.findings,
      Occurrence.entityIssues, Atomic.query?]
  | relation a op e c spans ih =>
    rw [checkCondition, ih, Condition.occurrences, List.flatMap_cons, checkEntity_eq]
    simp [checkLeaf, Occurrence.findings, Occurrence.entityIssues, Atomic.query?]
  | negation c ih => exact ih host
  | group k cs ih =>
    rw [checkCondition, checkAll_eq_flatMap, Condition.occurrences,
      Condition.occurrencesOfAll_eq_flatMap, List.flatMap_assoc]
    exact List.flatMap_congr fun c hc => ih c hc host

/-- The findings about a property are warnings. -/
theorem filterMap_checkProperty (a : Attribute) (target property : String) :
    (checkProperty a target property).filterMap Finding.issue? = [] := by
  simp only [checkProperty]
  split_ifs <;> rfl

theorem filterMap_checkHint (m : ValueMatch) (property : String) :
    (checkHint m property).filterMap Finding.issue?
      = ((Atomic.value m).hint? property).toList := by
  simp only [checkHint, Atomic.hint?, Bool.and_eq_true, decide_eq_true_eq]
  split_ifs
  · rfl
  · cases Schema.valueHint? property (Literal.unquote m.value) <;> rfl

end Validation

namespace Occurrence

/-- A leaf has one issue of its own at most. -/
theorem issues_eq (q : Query) (o : Occurrence) : o.issues q = (q.issueAt? o).toList := by
  have hresolve := q.resolve?_eq o
  rw [Query.issueAt?]
  -- relations are checked like comparisons, apart from what is asked of a value
  split_ifs at hresolve ⊢ with hopen <;> obtain ⟨host, m | ⟨a, op, p⟩⟩ := o <;>
    simp only [name, Atomic.subject] at hresolve
  · simp only [issues, findings, Validation.checkValue, hresolve]
    rfl
  · simp only [issues, findings, Validation.checkRelation, hresolve]
    rfl
  · simp only [issues, findings, Validation.checkValue, hresolve, Atomic.subject]
    cases m.subject.firstProperty? with
    | none => rfl
    | some property =>
      simp only [Schema.isUnsupported, List.contains_iff_mem, Option.bind_some]
      split_ifs
      · rfl
      · rw [List.filterMap_append, Validation.filterMap_checkProperty,
          Validation.filterMap_checkHint, List.nil_append]
  · simp only [issues, findings, Validation.checkRelation, hresolve, Atomic.subject]
    cases a.firstProperty? with
    | none => rfl
    | some property =>
      simp only [Schema.isUnsupported, List.contains_iff_mem, Option.bind_some]
      split_ifs
      · rfl
      · exact Validation.filterMap_checkProperty ..

end Occurrence

/-! ### The kinds of issues -/

section Kinds

variable {settings : Settings} {q : Query} {o : Occurrence} {i : Issue}

theorem Entity.kind_of_mem_issues {e : Entity} (h : i ∈ e.issues settings) :
    i.kind = .invalidNodeType := by
  rw [issues] at h
  split_ifs at h
  · cases h
  · obtain rfl := List.mem_singleton.mp h
    rfl

theorem Occurrence.kind_of_mem_entityIssues (h : i ∈ o.entityIssues settings) :
    i.kind = .invalidNodeType := by
  obtain ⟨p, -, hi⟩ := List.mem_flatMap.mp h
  exact Entity.kind_of_mem_issues hi

@[simp] theorem Atomic.kind_unsupported (l : Atomic) (target property : String) :
    (l.unsupported target property).kind = .unsupportedPath := by
  cases l <;> rfl

theorem Atomic.kind_of_hint? {l : Atomic} {property : String} (h : l.hint? property = some i) :
    i.kind = .invalidValue := by
  cases l with
  | value m =>
    rw [hint?] at h
    split_ifs at h
    obtain ⟨nodeType, -, rfl⟩ := Option.map_eq_some_iff.mp h
    rfl
  | relation a op p => cases h

/-- The three issues that a leaf can have. -/
theorem Query.issueAt?_eq_some_iff : q.issueAt? o = some i ↔
    (q.LeavesOpen o ∧ i = .ofMissingAlias o.name)
      ∨ ¬q.LeavesOpen o ∧ ∃ property, o.atomic.subject.firstProperty? = some property
        ∧ ((q.typeAt o, property) ∈ Schema.unsupportedPaths
            ∧ i = o.atomic.unsupported (q.typeAt o) property
          ∨ (q.typeAt o, property) ∉ Schema.unsupportedPaths
            ∧ o.atomic.hint? property = some i) := by
  rw [issueAt?]
  split_ifs with hopen
  · simp [hopen, eq_comm]
  · rw [Option.bind_eq_some_iff]
    simp only [hopen, false_and, false_or, not_false_iff, true_and]
    refine exists_congr fun property => and_congr_right fun _ => ?_
    split_ifs with hbarred
    · simp [hbarred, eq_comm]
    · simp [hbarred]

theorem Query.exists_missingAlias_iff :
    (∃ i, q.issueAt? o = some i ∧ i.kind = .missingAlias) ↔ q.LeavesOpen o := by
  constructor
  · rintro ⟨i, h, hkind⟩
    obtain ⟨hopen, -⟩ | ⟨-, property, -, ⟨-, rfl⟩ | ⟨-, hhint⟩⟩ := issueAt?_eq_some_iff.mp h
    · exact hopen
    · simp at hkind
    · rw [Atomic.kind_of_hint? hhint] at hkind
      cases hkind
  · intro hopen
    exact ⟨_, issueAt?_eq_some_iff.mpr (.inl ⟨hopen, rfl⟩), rfl⟩

theorem Query.exists_unsupportedPath_iff {property : String} (hopen : ¬q.LeavesOpen o)
    (hproperty : o.atomic.subject.firstProperty? = some property) :
    (∃ i, q.issueAt? o = some i ∧ i.kind = .unsupportedPath)
      ↔ (q.typeAt o, property) ∈ Schema.unsupportedPaths := by
  constructor
  · rintro ⟨i, h, hkind⟩
    obtain ⟨hopen', -⟩ | ⟨-, p, hp, ⟨hbarred, -⟩ | ⟨-, hhint⟩⟩ := issueAt?_eq_some_iff.mp h
    · exact absurd hopen' hopen
    · rwa [Option.some.inj (hproperty.symm.trans hp)]
    · rw [Atomic.kind_of_hint? hhint] at hkind
      cases hkind
  · intro hbarred
    refine ⟨o.atomic.unsupported (q.typeAt o) property, issueAt?_eq_some_iff.mpr (.inr ?_),
      Atomic.kind_unsupported ..⟩
    exact ⟨hopen, property, hproperty, .inl ⟨hbarred, rfl⟩⟩

end Kinds

/-! ### The issues of a query -/

/-- The issues of a query that its leaves do not have: those of aliases that are declared more than
once, if they are reported, and that of its own entity. -/
def Query.ownIssues (settings : Settings) (q : Query) : List Issue :=
  (if settings.reportDuplicateAliases then
      (Aliases.ofQuery q).duplicates.map Issue.ofDuplicateAlias
    else [])
  ++ q.entity.issues settings

/-- The report on a query is that on its condition behind the issues that leaves do not have. -/
theorem validate_eq (settings : Settings) (q : Query) :
    let report := Report.ofFindings (Validation.checkCondition settings (Aliases.ofQuery q)
      (Validation.Context.ofEntity q.entity) q.condition)
    validate settings q = ⟨q.ownIssues settings ++ report.issues, report.warnings⟩ := by
  have hduplicates : Validation.checkDuplicates settings (Aliases.ofQuery q)
      = (if settings.reportDuplicateAliases then
          (Aliases.ofQuery q).duplicates.map Issue.ofDuplicateAlias
        else []).map Finding.issue := by
    rw [Validation.checkDuplicates]
    split_ifs <;> simp
  rw [validate, Validation.checkQuery, hduplicates, Validation.checkEntity_eq, ← List.append_assoc,
    ← List.map_append]
  simp [Report.ofFindings, Query.ownIssues, List.filterMap_map, Function.comp_def, Finding.issue?,
    Finding.warning?]

/-- What is found about a leaf, without the warnings. -/
theorem Validation.filterMap_checkLeaf (settings : Settings) (q : Query) (o : Occurrence) :
    (checkLeaf settings (Aliases.ofQuery q) o).filterMap Finding.issue?
      = o.issues q ++ o.entityIssues settings := by
  rw [checkLeaf, List.filterMap_append, List.filterMap_map]
  simp [Occurrence.issues, Function.comp_def, Finding.issue?]

theorem issues_validate_eq (settings : Settings) (q : Query) : (validate settings q).issues
    = q.ownIssues settings
      ++ q.occurrences.flatMap fun o => (q.issueAt? o).toList ++ o.entityIssues settings := by
  rw [validate_eq, Report.ofFindings, Validation.checkCondition_eq, List.filterMap_flatMap,
    Query.occurrences]
  refine congrArg _ (List.flatMap_congr fun o _ => ?_)
  rw [Validation.filterMap_checkLeaf, Occurrence.issues_eq]

theorem Query.kind_of_mem_ownIssues {settings : Settings} {q : Query} {i : Issue}
    (h : i ∈ q.ownIssues settings) : i.kind = .duplicateAlias ∨ i.kind = .invalidNodeType := by
  rcases List.mem_append.mp h with h | h
  · split_ifs at h
    · obtain ⟨name, -, rfl⟩ := List.mem_map.mp h
      exact .inl rfl
    · cases h
  · exact .inr (Entity.kind_of_mem_issues h)

/-- The issues of leaves of some kind. -/
theorem issuesOf_validate {kind : Issue.Kind} (hduplicate : kind ≠ .duplicateAlias)
    (hentity : kind ≠ .invalidNodeType) (settings : Settings) (q : Query) :
    (validate settings q).issuesOf kind
      = q.occurrences.flatMap fun o => (q.issueAt? o).toList.filter (·.kind = kind) := by
  have hown : (q.ownIssues settings).filter (·.kind = kind) = [] := by
    rw [List.filter_eq_nil_iff]
    intro i hi
    rcases Query.kind_of_mem_ownIssues hi with hkind | hkind
    · simpa [hkind] using hduplicate.symm
    · simpa [hkind] using hentity.symm
  rw [Report.issuesOf, issues_validate_eq, List.filter_append, hown, List.nil_append,
    List.filter_flatMap]
  refine List.flatMap_congr fun o _ => ?_
  have hnone : (o.entityIssues settings).filter (·.kind = kind) = [] := by
    rw [List.filter_eq_nil_iff]
    intro i hi
    simpa [Occurrence.kind_of_mem_entityIssues hi] using hentity.symm
  rw [List.filter_append, hnone, List.append_nil]

/-- The issues of such kinds are those of leaves. -/
theorem exists_issueAt?_eq {settings : Settings} {q : Query} {i : Issue}
    (hi : i ∈ (validate settings q).issues) (hduplicate : i.kind ≠ .duplicateAlias)
    (hentity : i.kind ≠ .invalidNodeType) : ∃ o ∈ q.occurrences, q.issueAt? o = some i := by
  have hkind : i ∈ (validate settings q).issuesOf i.kind := List.mem_filter.mpr ⟨hi, by simp⟩
  rw [issuesOf_validate hduplicate hentity, List.mem_flatMap] at hkind
  obtain ⟨o, ho, hmem⟩ := hkind
  exact ⟨o, ho, Option.mem_toList.mp (List.mem_filter.mp hmem).1⟩

/-- The issues about names that stand for nothing. -/
theorem issuesOf_missingAlias (settings : Settings) (q : Query) :
    (validate settings q).issuesOf .missingAlias
      = (q.occurrences.filter (q.LeavesOpen ·)).map fun o => .ofMissingAlias o.name := by
  have hleaf : ∀ o, (q.issueAt? o).toList.filter (·.kind = .missingAlias)
      = if q.LeavesOpen o then [.ofMissingAlias o.name] else [] := by
    intro o
    split_ifs with hopen
    · rw [Query.issueAt?, if_pos hopen]
      rfl
    · rw [List.filter_eq_nil_iff]
      intro i hi hkind
      exact hopen (Query.exists_missingAlias_iff.mp ⟨i, by simpa using hi, by simpa using hkind⟩)
  rw [issuesOf_validate (by decide) (by decide)]
  induction q.occurrences with
  | nil => rfl
  | cons o os ih =>
    rw [List.flatMap_cons, ih, hleaf, List.filter_cons]
    by_cases hopen : q.LeavesOpen o <;> simp [hopen]

/-- A report has the issues that leaves do not have, and then those of each leaf in turn, of which
a relation may have one of its own and one of the entity that it declares. The leaves whose names
stand for nothing are reported in their order. Of any other leaf it is reported that its first
property cannot be evaluated just if that is so for the type of the node for which its name
stands. -/
theorem issues_validate (settings : Settings) (q : Query) :
    ((validate settings q).issues = q.ownIssues settings
        ++ q.occurrences.flatMap fun o => o.issues q ++ o.entityIssues settings)
      ∧ (validate settings q).issuesOf .missingAlias
        = (q.occurrences.filter (q.LeavesOpen ·)).map (fun o => Issue.ofMissingAlias o.name)
      ∧ ∀ o : Occurrence, (o.issues q).length ≤ 1
        ∧ (¬q.LeavesOpen o → ∀ property, o.atomic.subject.firstProperty? = some property →
          ((∃ i ∈ o.issues q, i.kind = .unsupportedPath)
            ↔ (q.typeAt o, property) ∈ Schema.unsupportedPaths)) := by
  refine ⟨?_, issuesOf_missingAlias settings q, fun o => ?_⟩
  · simp only [Occurrence.issues_eq]
    exact issues_validate_eq settings q
  · rw [Occurrence.issues_eq]
    refine ⟨Option.length_toList_le, fun hopen property hproperty => ?_⟩
    simpa using Query.exists_unsupportedPath_iff hopen hproperty

end NodeQuery
