/-
Suggestions that mend a query.

In place of a comparison with an operator it may be suggested to ask for a node type. Such a
suggestion can be read as a condition. A query in which that condition takes the place of the
comparison has the issues that it had before, without that of the comparison: the condition
declares nothing, and it speaks of the same node, of which it asks for no property.

* `Condition.Hole`: a place in a condition, at any depth; `Condition.Hole.exists_fill_of_mem`: every
  comparison has one.
* `exists_issues_validate_fill`: the issues around a place do not depend on what stands there.
* `parseCondition_typeCheck`: what is read of a suggestion.
* `validate_mended`: the report on a query that was mended.
-/
import NodeQuery.Proofs.RoundTrip
import NodeQuery.Proofs.Suggesting

namespace NodeQuery

namespace Condition

/-! ### Places in a condition -/

/-- A place in a condition, at any depth, given by what is around it. -/
inductive Hole where
  | here
  | nested (subject : Attribute) (operator : RelOp) (entity : Entity) (inner : Hole)
      (spans : QuerySpans)
  | negation (inner : Hole)
  | member (connective : Connective) (before : List Condition) (inner : Hole)
      (after : List Condition)

namespace Hole

/-- What is around the place, with a condition put there. -/
def fill (c : Condition) : Hole → Condition
  | here => c
  | nested a op e h spans => .relation a op e (h.fill c) spans
  | negation h => .negation (h.fill c)
  | member k before h after => .group k (before ++ h.fill c :: after)

/-- The entity that a condition at the place is on, if the outermost one is on `host`. -/
def host (host : Entity) : Hole → Entity
  | here => host
  | nested _ _ e h _ => h.host e
  | negation h => h.host host
  | member _ _ h _ => h.host host

theorem entities_fill {c d : Condition} (heq : c.entities = d.entities) (h : Hole) :
    (h.fill c).entities = (h.fill d).entities := by
  induction h with
  | here => exact heq
  | nested a op e h spans ih => simp [fill, ih]
  | negation h ih => simp [fill, ih]
  | member k before h after ih => simp [fill, ih]

theorem wellFormed_of_fill {P : Attribute → Prop} {c : Condition} {h : Hole}
    (hfill : (h.fill c).WellFormed P) : c.WellFormed P := by
  induction h with
  | here => exact hfill
  | nested a op e h spans ih => exact ih hfill.2.2
  | negation h ih => exact ih hfill
  | member k before h after ih => exact ih (allWellFormed_iff.mp hfill.2 _ (by simp))

/-- Every comparison in a condition stands at a place. -/
theorem exists_fill_of_mem {c : Condition} {outer e : Entity} {m : ValueMatch}
    (hmem : ⟨e, .value m⟩ ∈ c.occurrences outer) :
    ∃ h : Hole, c = h.fill (.value m) ∧ h.host outer = e := by
  induction c generalizing outer with
  | value n =>
    obtain ⟨rfl, rfl⟩ : e = outer ∧ m = n := by simpa [occurrences] using hmem
    exact ⟨here, rfl, rfl⟩
  | relation a op d c spans ih =>
    obtain ⟨h, rfl, hhost⟩ := ih (by simpa [occurrences] using hmem)
    exact ⟨nested a op d h spans, rfl, hhost⟩
  | negation c ih =>
    obtain ⟨h, rfl, hhost⟩ := ih hmem
    exact ⟨negation h, rfl, hhost⟩
  | group k cs ih =>
    rw [occurrences, occurrencesOfAll_eq_flatMap, List.mem_flatMap] at hmem
    obtain ⟨c, hc, hmem⟩ := hmem
    obtain ⟨before, after, rfl⟩ := List.append_of_mem hc
    obtain ⟨h, rfl, hhost⟩ := ih c hc hmem
    exact ⟨member k before h after, rfl, hhost⟩

end Hole

end Condition

/-! ### What is found around a place -/

namespace Validation

/-- The leaves in front of a place and those behind it, and that what is found about them does not
depend on what stands in the place. -/
theorem exists_checkCondition_fill (h : Condition.Hole) (c : Condition) (host : Entity) :
    ∃ front back, (h.fill c).occurrences host = front ++ c.occurrences (h.host host) ++ back
      ∧ ∀ settings aliases d, checkCondition settings aliases (Context.ofEntity host) (h.fill d)
        = front.flatMap (checkLeaf settings aliases)
          ++ checkCondition settings aliases (Context.ofEntity (h.host host)) d
          ++ back.flatMap (checkLeaf settings aliases) := by
  induction h generalizing host with
  | here =>
    refine ⟨[], [], ?_, fun settings aliases d => ?_⟩
    · rw [List.append_nil]
      rfl
    · rw [List.flatMap_nil, List.append_nil]
      rfl
  | nested a op e h spans ih =>
    obtain ⟨front, back, hleaves, hfindings⟩ := ih e
    refine ⟨⟨host, .relation a op ⟨e, h.fill c, spans⟩⟩ :: front, back, ?_,
      fun settings aliases d => ?_⟩
    · rw [Condition.Hole.fill, Condition.occurrences, hleaves]
      rfl
    · -- of the nested query only the entity counts for what is found about the relation
      have hrelation : checkLeaf settings aliases ⟨host, .relation a op ⟨e, h.fill c, spans⟩⟩
          = checkRelation aliases (Context.ofEntity host) a ++ checkEntity settings e := by
        simp [checkLeaf, Occurrence.findings, Occurrence.entityIssues, Atomic.query?,
          checkEntity_eq]
      rw [Condition.Hole.fill, checkCondition, hfindings, List.flatMap_cons, hrelation]
      simp only [List.append_assoc]
      rfl
  | negation h ih => exact ih host
  | member k before h after ih =>
    obtain ⟨front, back, hleaves, hfindings⟩ := ih host
    refine ⟨before.flatMap (Condition.occurrences host) ++ front,
      back ++ after.flatMap (Condition.occurrences host), ?_, fun settings aliases d => ?_⟩
    · rw [Condition.Hole.fill, Condition.occurrences, Condition.occurrencesOfAll_eq_flatMap,
        List.flatMap_append, List.flatMap_cons, hleaves]
      simp only [List.append_assoc]
      rfl
    · have hmembers : ∀ cs : List Condition,
          cs.flatMap (checkCondition settings aliases (Context.ofEntity host))
            = (cs.flatMap (Condition.occurrences host)).flatMap (checkLeaf settings aliases) := by
        intro cs
        rw [List.flatMap_assoc]
        exact List.flatMap_congr fun c _ => checkCondition_eq c host
      rw [Condition.Hole.fill, checkCondition, checkAll_eq_flatMap, List.flatMap_append,
        List.flatMap_cons, hmembers, hmembers, hfindings, List.flatMap_append,
        List.flatMap_append]
      simp only [List.append_assoc]
      rfl

/-- A condition is checked alike under aliases that stand for nodes of the same types. -/
theorem checkCondition_congr {settings : Settings} {aliases others : Aliases}
    (h : ∀ name, others.typeOf? name = aliases.typeOf? name) (c : Condition) (context : Context) :
    checkCondition settings others context c = checkCondition settings aliases context c := by
  induction c generalizing context with
  | value m => exact checkValue_congr (resolve?_congr (h _))
  | relation a op e c spans ih =>
    rw [checkCondition, checkCondition, ih, checkRelation_congr (resolve?_congr (h _))]
  | negation c ih => exact ih context
  | group k cs ih =>
    rw [checkCondition, checkCondition, checkAll_eq_flatMap, checkAll_eq_flatMap]
    exact List.flatMap_congr fun c hc => ih c hc context

end Validation

/-- The issues of leaves of a query, and of the entities that are declared in them. -/
def Query.leafIssues (settings : Settings) (q : Query) (os : List Occurrence) : List Issue :=
  os.flatMap fun o => o.issues q ++ o.entityIssues settings

theorem Query.leafIssues_value (settings : Settings) (q : Query) (e : Entity) (m : ValueMatch) :
    q.leafIssues settings ((Condition.value m).occurrences e)
      = (q.issueAt? ⟨e, .value m⟩).toList := by
  rw [Condition.occurrences, leafIssues, List.flatMap_singleton, Occurrence.issues_eq]
  exact List.append_nil _

theorem Query.ownIssues_congr {p q : Query} (hentities : p.entities = q.entities)
    (settings : Settings) : p.ownIssues settings = q.ownIssues settings := by
  have hentity : p.entity = q.entity := (List.cons.inj hentities).1
  have hduplicates : (Aliases.ofQuery p).duplicates = (Aliases.ofQuery q).duplicates := by
    simp only [Aliases.duplicates, Aliases.names, map_fst_declarations, hentities]
  rw [ownIssues, ownIssues, hduplicates, hentity]

/-- What stands at a place may be replaced by anything with the same declarations: the report has
the issues of what stands there now, between the issues of the leaves around it. -/
theorem exists_issues_validate_fill {q : Query} {h : Condition.Hole} {c : Condition}
    (hc : q.condition = h.fill c) :
    ∃ front back, q.occurrences = front ++ c.occurrences (h.host q.entity) ++ back
      ∧ ∀ (settings : Settings) (d : Condition), d.entities = c.entities →
        (validate settings { q with condition := h.fill d }).issues
          = q.ownIssues settings ++ q.leafIssues settings front
            ++ q.leafIssues settings (d.occurrences (h.host q.entity))
            ++ q.leafIssues settings back := by
  obtain ⟨front, back, hleaves, hfindings⟩ := Validation.exists_checkCondition_fill h c q.entity
  refine ⟨front, back, by rw [Query.occurrences, hc, hleaves], fun settings d hd => ?_⟩
  -- the names stand for the nodes for which they stood before
  have hentities : Query.entities { q with condition := h.fill d } = q.entities := by
    show q.entity :: (h.fill d).entities = q.entity :: q.condition.entities
    rw [hc, Condition.Hole.entities_fill hd]
  have hnames : ∀ name, (Aliases.ofQuery { q with condition := h.fill d }).typeOf? name
      = (Aliases.ofQuery q).typeOf? name := by
    intro name
    rw [typeOf?_ofQuery, typeOf?_ofQuery, hentities]
  have hissues : ∀ os : List Occurrence,
      (os.flatMap (Validation.checkLeaf settings (Aliases.ofQuery q))).filterMap Finding.issue?
        = q.leafIssues settings os := by
    intro os
    rw [List.filterMap_flatMap]
    exact List.flatMap_congr fun o _ => Validation.filterMap_checkLeaf settings q o
  rw [validate_eq, Query.ownIssues_congr hentities, Report.ofFindings,
    Validation.checkCondition_congr hnames, hfindings, Validation.checkCondition_eq]
  simp only [List.filterMap_append, hissues, List.append_assoc]

/-! ### The report on a query that was mended -/

/-- The suggestion to ask for a node type is read as a condition that does so. -/
theorem parseCondition_typeCheck {name nodeType : String} (hname : Literal.isName name = true)
    (htype : Literal.isName nodeType = true) : parseCondition (name ++ " is " ++ nodeType)
      = .ok (.value ⟨.node name, .is, nodeType⟩) := by
  have hplain : (Condition.value ⟨.node name, .is, nodeType⟩).IsPlain := by
    simpa [Condition.IsPlain, Condition.WellFormed, Attribute.isPlain, Attribute.node] using hname
  have hescaped := Literal.escape_of_isName htype
  have hrender : (Condition.value ⟨.node name, .is, nodeType⟩).render
      = name ++ " is " ++ nodeType := by
    simp [Condition.render, ValueMatch.render, Attribute.path, Attribute.node, Text.joinWith,
      ValueOp.spelling, hescaped, String.append_assoc]
  obtain ⟨c, hc, herase⟩ := (parseCondition_of_rereads (rereads_of_isPlain hplain)).1
    (by decide : 1 ≤ Parser.maxNesting)
  rw [Condition.escaped, hescaped] at herase
  rw [← hrender, hc, Condition.eq_value_of_eraseSpans herase]

/-- To ask for the type of a node of which a leaf speaks gives no issue, unless it is that its
name stands for nothing. -/
theorem Query.issueAt?_typeCheck {q : Query} {e : Entity} {l : Atomic}
    (h : ¬q.LeavesOpen ⟨e, l⟩) (nodeType : String) :
    q.issueAt? ⟨e, .value ⟨.node l.subject.name, .is, nodeType⟩⟩ = none := by
  have hopen : ¬q.LeavesOpen ⟨e, .value ⟨.node l.subject.name, .is, nodeType⟩⟩ := h
  rw [issueAt?, if_neg hopen]
  rfl

/-- The entity and the comparison, if the leaf is one. -/
def Occurrence.comparison? (o : Occurrence) : Option (Entity × ValueMatch) :=
  match o.atomic with
  | .value m => some (o.host, m)
  | .relation .. => none

theorem Occurrence.comparison?_eq_some_iff {o : Occurrence} {e : Entity} {m : ValueMatch} :
    o.comparison? = some (e, m) ↔ o = ⟨e, .value m⟩ := by
  obtain ⟨host, n | ⟨a, op, p⟩⟩ := o <;> simp [comparison?]

/-- In a query that is read of a text, a comparison has an issue of its property or of its value,
and the issue suggests to ask whether something is of a node type. The suggestion is read as a
condition. A query in which this condition takes the place of the comparison, at whatever depth,
has the issues that the query had in the same order, without the one of the comparison. -/
theorem validate_mended {source : String} {q : Query} (hq : parse source = .ok q)
    {h : Condition.Hole} {m : ValueMatch} (hm : q.condition = h.fill (.value m)) {i : Issue}
    (hi : i ∈ (⟨h.host q.entity, .value m⟩ : Occurrence).issues q)
    (hkind : i.kind = .unsupportedPath ∨ i.kind = .invalidValue) {name nodeType : String}
    (hproposes : i.Proposes name nodeType) (settings : Settings) :
    ∃ c, parseCondition (name ++ " is " ++ nodeType) = .ok c
      ∧ ∃ front back, q.occurrences = front ++ ⟨h.host q.entity, .value m⟩ :: back
        ∧ (validate settings q).issues
          = q.ownIssues settings ++ q.leafIssues settings front ++ i :: q.leafIssues settings back
        ∧ (validate settings { q with condition := h.fill c }).issues
          = q.ownIssues settings ++ q.leafIssues settings front
            ++ q.leafIssues settings back := by
  obtain ⟨hplain, -, -⟩ := tidy_of_parse hq
  have hcomparison : (Condition.value m).IsPlain :=
    Condition.Hole.wellFormed_of_fill (h := h) (hm ▸ hplain.2)
  have hname : Literal.isName m.subject.name = true :=
    Attribute.isName_of_isPlain hcomparison _ (List.mem_cons_self ..)
  have htype := Schema.isName_of_mem_nodeTypes nodeType hproposes.2
  rw [Occurrence.issues_eq, Option.mem_toList] at hi
  obtain rfl : name = m.subject.name := Query.eq_name_of_proposes hi hkind hproposes
  refine ⟨_, parseCondition_typeCheck hname htype, ?_⟩
  obtain ⟨front, back, hleaves, hissues⟩ := exists_issues_validate_fill hm
  have hresolved : ¬q.LeavesOpen ⟨h.host q.entity, .value m⟩ := by
    intro hopen
    rw [Query.issueAt?, if_pos hopen] at hi
    obtain rfl := Option.some_inj.mp hi
    rcases hkind with hkind | hkind <;> cases hkind
  have hmended := Query.issueAt?_typeCheck hresolved nodeType
  refine ⟨front, back, by simpa [Condition.occurrences] using hleaves, ?_, ?_⟩
  · have hbefore := hissues settings (.value m) rfl
    rw [← hm, Query.leafIssues_value, hi] at hbefore
    rw [hbefore]
    simp
  · rw [hissues settings (.value ⟨.node m.subject.name, .is, nodeType⟩) rfl,
      Query.leafIssues_value]
    simp only [Atomic.subject] at hmended
    rw [hmended, Option.toList_none, List.append_nil]

/-- The comparison stands in a group, in a nested query that is negated, and the query has another
issue behind it. -/
theorem validate_mended_nested :
    let source := "ifBlock a where and(not(a.condition contain binaryOperation b where "
      ++ "or(b.operator is instanceof, b.lhs == 1) ;), c.name == 2) ;"
    let m : ValueMatch := ⟨⟨"b", ["operator"]⟩, .is, "instanceof"⟩
    let i := Issue.ofUnsupportedValue m "binaryOperation" "operator"
    ∃ (q : Query) (h : Condition.Hole) (c : Condition),
      parse source = .ok q ∧ q.condition = h.fill (.value m)
      ∧ parseCondition "b is instanceofExpression" = .ok c
      ∧ (validate {} q).issues = [i, Issue.ofMissingAlias "c"]
      ∧ ∃ before after, (validate {} q).issues = before ++ i :: after
        ∧ (validate {} { q with condition := h.fill c }).issues = before ++ after := by
  intro source m i
  let e : Entity := ⟨"binaryOperation", some "b"⟩
  obtain ⟨q, hq, hfacts⟩ := exists_parse_of_any (by decide +kernel :
    ((parse source).toOption.any fun q =>
      decide ((e, m) ∈ q.occurrences.filterMap Occurrence.comparison?
        ∧ i ∈ (⟨e, .value m⟩ : Occurrence).issues q
        ∧ (validate {} q).issues = [i, Issue.ofMissingAlias "c"])) = true)
  obtain ⟨hthere, hi, hissues⟩ := of_decide_eq_true hfacts
  have hmem : ⟨e, .value m⟩ ∈ q.condition.occurrences q.entity := by
    obtain ⟨o, ho, hcomparison⟩ := List.mem_filterMap.mp hthere
    rwa [Occurrence.comparison?_eq_some_iff.mp hcomparison] at ho
  obtain ⟨h, hm, hhost⟩ := Condition.Hole.exists_fill_of_mem hmem
  obtain ⟨c, hc, front, back, -, hbefore, hafter⟩ :=
    validate_mended hq hm (by rw [hhost]; exact hi) (.inl rfl)
      (⟨by decide, by decide⟩ : i.Proposes "b" "instanceofExpression") {}
  exact ⟨q, h, c, hq, hm, hc, hissues, _, _, hbefore, hafter⟩

end NodeQuery
