/-
Queries without issues.

* `Clean`: findings without an issue among them.
* `Validation.demands`: what is demanded of the parts of a condition that has no issue;
  `Validation.clean_checkCondition_iff`: such conditions meet it.
* `Aliases.typeOf?`: the type of the node for which an alias stands. It is all that the check of
  a leaf depends on.
* `Validation.validate_of_sublist`: a query has no issue if its parts have none under aliases
  that stand for nodes of the same types.
-/
import Mathlib.Data.List.Nodup
import NodeQuery.Proofs.Editing
import NodeQuery.Validation

namespace NodeQuery

/-! ### Findings without an issue -/

/-- There is no issue among the findings. -/
def Clean (findings : List Finding) : Prop :=
  ∀ f ∈ findings, f.issue? = none

theorem isValid_ofFindings {findings : List Finding} :
    (Report.ofFindings findings).isValid = true ↔ Clean findings := by
  simp [Report.isValid, Report.ofFindings, Clean]

theorem clean_nil : Clean [] :=
  List.forall_mem_nil _

theorem clean_append {fs gs : List Finding} : Clean (fs ++ gs) ↔ Clean fs ∧ Clean gs :=
  List.forall_mem_append

theorem not_clean_issue (i : Issue) : ¬Clean [.issue i] := by
  intro h
  have := h _ (List.mem_singleton_self _)
  cases this

/-- The type of the node for which an alias stands. -/
def Aliases.typeOf? (as : Aliases) (name : String) : Option String :=
  (as.find? name).map fun q => q.entity.nodeType

theorem Aliases.typeOf?_ne_none {as : Aliases} {name : String} {q : Query}
    (h : as.first? = some (name, q)) : as.typeOf? name ≠ none := by
  have hmem : (name, q) ∈ as.declarations := List.mem_of_head? h
  intro hnone
  rw [Aliases.typeOf?, Option.map_eq_none_iff, Aliases.find?, Option.map_eq_none_iff,
    List.find?_eq_none] at hnone
  exact hnone (name, q) (List.mem_reverse.mpr hmem) (by simp)

namespace Validation

variable {settings : Settings} {aliases others : Aliases} {context : Context}

/-- What is demanded of the parts of a condition without issues. -/
def demands (settings : Settings) (aliases : Aliases) : Demands where
  value e m := Clean (checkValue aliases (Context.ofEntity e) m)
  subject e a := Clean (checkRelation aliases (Context.ofEntity e) a)
  entity e := e.isPlain = true ∧ Clean (checkEntity settings e)

theorem clean_checkAll_iff {cs : List Condition} :
    Clean (checkAll settings aliases context cs)
      ↔ ∀ c ∈ cs, Clean (checkCondition settings aliases context c) := by
  induction cs with
  | nil => simp [checkAll, clean_nil]
  | cons c cs ih => rw [checkAll, clean_append, ih, List.forall_mem_cons]

theorem clean_checkCondition_iff {c : Condition} (hc : c.IsPlain) {e : Entity} :
    Clean (checkCondition settings aliases (Context.ofEntity e) c)
      ↔ c.Meets (demands settings aliases) e := by
  induction c generalizing e with
  | value m => rfl
  | relation a op d c spans ih =>
    obtain ⟨-, hd, hc⟩ := hc
    rw [checkCondition, clean_append, clean_append, ih hc, and_assoc]
    exact and_congr_right fun _ => and_congr_left fun _ => (and_iff_right hd).symm
  | negation c ih => exact ih hc
  | group k cs ih =>
    obtain ⟨hlen, hcs⟩ := hc
    rw [checkCondition, clean_checkAll_iff, Condition.Meets, Condition.allMeet_iff,
      and_iff_right hlen]
    exact forall₂_congr fun c hc => ih c hc (Condition.allWellFormed_iff.mp hcs c hc)

/-! ### Names -/

theorem resolve?_eq (name : String) : resolve? aliases context name
    = (aliases.typeOf? name).or
      (if context.name? = some name then some context.nodeType else none) := by
  unfold resolve? Aliases.typeOf?
  cases aliases.find? name <;> rfl

theorem resolve?_congr {name : String} (h : others.typeOf? name = aliases.typeOf? name) :
    resolve? others context name = resolve? aliases context name := by
  rw [resolve?_eq, resolve?_eq, h]

theorem checkValue_congr {m : ValueMatch} {context' : Context}
    (h : resolve? others context' m.subject.name = resolve? aliases context m.subject.name) :
    checkValue others context' m = checkValue aliases context m := by
  rw [checkValue, checkValue, h]

theorem checkRelation_congr {a : Attribute} {context' : Context}
    (h : resolve? others context' a.name = resolve? aliases context a.name) :
    checkRelation others context' a = checkRelation aliases context a := by
  rw [checkRelation, checkRelation, h]

/-- A condition has no issue under aliases that stand for nodes of the same types. -/
theorem meets_demands_congr {c : Condition} {e : Entity}
    (hc : c.WellFormed fun a => others.typeOf? a.name = aliases.typeOf? a.name)
    (h : c.Meets (demands settings aliases) e) : c.Meets (demands settings others) e := by
  induction c generalizing e with
  | value m =>
    have hvalue : checkValue others (Context.ofEntity e) m
        = checkValue aliases (Context.ofEntity e) m := checkValue_congr (resolve?_congr hc)
    show Clean (checkValue others (Context.ofEntity e) m)
    rw [hvalue]
    exact h
  | relation a op d c spans ih =>
    obtain ⟨ha, -, hc⟩ := hc
    obtain ⟨hsubject, hd, h⟩ := h
    have hrelation : checkRelation others (Context.ofEntity e) a
        = checkRelation aliases (Context.ofEntity e) a := checkRelation_congr (resolve?_congr ha)
    refine ⟨?_, hd, ih hc h⟩
    show Clean (checkRelation others (Context.ofEntity e) a)
    rw [hrelation]
    exact hsubject
  | negation c ih => exact ih hc h
  | group k cs ih =>
    refine ⟨h.1, Condition.allMeet_iff.mpr fun c hmem => ?_⟩
    exact ih c hmem (Condition.allWellFormed_iff.mp hc.2 c hmem)
      (Condition.allMeet_iff.mp h.2 c hmem)

/-- The check of a comparison depends only on what stands between the quotes of its value. -/
theorem clean_checkValue_congr {a : Attribute}
    {op : ValueOp} {v w : String} (h : Literal.unquote v = Literal.unquote w) :
    Clean (checkValue aliases context ⟨a, op, v⟩)
      ↔ Clean (checkValue aliases context ⟨a, op, w⟩) := by
  simp only [checkValue]
  split
  · exact Iff.rfl
  · exact Iff.rfl
  · split_ifs
    · exact iff_of_false (not_clean_issue _) (not_clean_issue _)
    · rw [clean_append, clean_append]
      refine and_congr_right fun _ => ?_
      simp only [checkHint, h]
      split_ifs
      · exact Iff.rfl
      · split
        · exact iff_of_false (not_clean_issue _) (not_clean_issue _)
        · exact Iff.rfl

/-- A comparison without issues in a condition by itself has none in the condition of any
entity: it speaks of an alias that is declared. -/
theorem clean_checkValue_of_standalone {m : ValueMatch}
    (h : Clean (checkValue aliases (standaloneContext aliases) m)) (context : Context) :
    Clean (checkValue aliases context m) := by
  -- the only other name that resolves is an alias as well, the first one
  have hdeclared : aliases.typeOf? m.subject.name ≠ none := by
    intro hnone
    have hresolve : resolve? aliases (standaloneContext aliases) m.subject.name = none := by
      rw [resolve?_eq, hnone, Option.none_or, standaloneContext]
      split
      · rename_i name q hfirst
        have hne : name ≠ m.subject.name := by
          rintro rfl
          exact Aliases.typeOf?_ne_none hfirst hnone
        simp [hne]
      · rfl
    rw [checkValue, hresolve] at h
    exact not_clean_issue _ h
  obtain ⟨t, ht⟩ := Option.ne_none_iff_exists'.mp hdeclared
  have hresolve : resolve? aliases context m.subject.name
      = resolve? aliases (standaloneContext aliases) m.subject.name := by
    rw [resolve?_eq, resolve?_eq, ht, Option.some_or, Option.some_or]
  rw [checkValue_congr hresolve]
  exact h

end Validation

/-! ### Declarations -/

/-- The aliases that are declared in a query, in order. -/
theorem map_fst_declarations (q : Query) :
    (Aliases.ofQuery q).declarations.map Prod.fst = q.entities.filterMap Entity.alias? := by
  rw [Aliases.ofQuery, Query.entities, List.map_filterMap, List.filterMap_map]
  refine List.filterMap_congr fun p _ => ?_
  rw [Option.map_map]
  exact Option.map_id'

theorem typeOf?_ofQuery (q : Query) (name : String) :
    (Aliases.ofQuery q).typeOf? name
      = (q.entities.reverse.find? fun e => e.alias? = some name).map Entity.nodeType := by
  rw [Aliases.typeOf?, Aliases.find?, Aliases.ofQuery, Query.entities]
  rw [← List.filterMap_reverse, ← List.map_reverse]
  -- both sides look for the last declaration of the name
  induction q.queries.reverse with
  | nil => rfl
  | cons p ps ih =>
    cases hdeclared : p.entity.alias? with
    | none =>
      rw [List.filterMap_cons_none (by rw [hdeclared]; rfl), List.map_cons,
        List.find?_cons_of_neg, ih]
      simp [hdeclared]
    | some declared =>
      rw [List.filterMap_cons_some (by rw [hdeclared]; rfl), List.map_cons]
      by_cases hname : declared = name
      · simp [hdeclared, hname]
      · rw [List.find?_cons_of_neg (by simpa using hname), List.find?_cons_of_neg, ih]
        simpa [hdeclared] using hname

/-- Names stand for nodes of the same types in queries with the same declarations. -/
theorem wellFormed_typeOf?_of_entities_eq {p q : Query} (hp : p.IsPlain)
    (h : p.entities = q.entities) : p.condition.WellFormed fun a =>
      (Aliases.ofQuery p).typeOf? a.name = (Aliases.ofQuery q).typeOf? a.name := by
  refine hp.2.mono fun a _ => ?_
  rw [typeOf?_ofQuery, typeOf?_ofQuery, h]

/-- An alias is declared twice just when the aliases that are declared are not all different. -/
theorem duplicates_eq_nil_iff (as : Aliases) :
    as.duplicates = [] ↔ (as.declarations.map Prod.fst).Nodup := by
  rw [Aliases.duplicates, Aliases.names, List.filter_eq_nil_iff, List.nodup_iff_count_le_one]
  constructor
  · intro h name
    by_cases hmem : name ∈ as.declarations.map Prod.fst
    · have := h name (List.mem_eraseDups.mpr hmem)
      simpa using this
    · rw [List.count_eq_zero_of_not_mem hmem]
      exact Nat.zero_le 1
  · intro h name _
    simpa using h name

namespace Validation

theorem clean_checkDuplicates_iff {settings : Settings} {aliases : Aliases} :
    Clean (checkDuplicates settings aliases)
      ↔ settings.reportDuplicateAliases = false
        ∨ (aliases.declarations.map Prod.fst).Nodup := by
  rw [← duplicates_eq_nil_iff, checkDuplicates]
  cases settings.reportDuplicateAliases with
  | false => simp [clean_nil]
  | true =>
    cases aliases.duplicates with
    | nil => simp [clean_nil]
    | cons name names => simp [Clean, Finding.issue?]

/-- A query made of names is valid just when its parts have no issue and no alias is declared
twice. -/
theorem isValid_validate_iff {settings : Settings} {q : Query} (hq : q.IsPlain) :
    (validate settings q).isValid = true
      ↔ Clean (checkDuplicates settings (Aliases.ofQuery q))
        ∧ (demands settings (Aliases.ofQuery q)).entity q.entity
        ∧ q.condition.Meets (demands settings (Aliases.ofQuery q)) q.entity := by
  rw [validate, isValid_ofFindings, clean_append, checkQuery, clean_append,
    clean_checkCondition_iff hq.2]
  exact and_congr_right fun _ => and_congr_left fun _ => (and_iff_right hq.1).symm

/-- A query has no issue if its declarations are some of those of a query that has none, and
its parts have none under aliases that stand for nodes of the same types. -/
theorem validate_of_sublist {settings : Settings} {p q : Query} (hp : p.IsPlain) (hq : q.IsPlain)
    (hvalid : (validate settings q).isValid = true) (hentity : p.entity = q.entity)
    (hentities : p.entities.Sublist q.entities)
    (hmeets : p.condition.Meets (demands settings (Aliases.ofQuery q)) p.entity)
    (hnames : p.condition.WellFormed fun a =>
      (Aliases.ofQuery p).typeOf? a.name = (Aliases.ofQuery q).typeOf? a.name) :
    (validate settings p).isValid = true := by
  rw [isValid_validate_iff hq] at hvalid
  obtain ⟨hduplicates, he, -⟩ := hvalid
  rw [isValid_validate_iff hp]
  refine ⟨?_, hentity ▸ he, meets_demands_congr hnames hmeets⟩
  rw [clean_checkDuplicates_iff, map_fst_declarations] at hduplicates ⊢
  exact hduplicates.imp_right fun h => (hentities.filterMap _).nodup h

end Validation

end NodeQuery
