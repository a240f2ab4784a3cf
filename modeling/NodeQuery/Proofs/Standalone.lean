/-
The condition of a query, checked by itself.

A condition that is no part of a query is checked in the context of the first entity that has an
alias. If the outermost entity has one, this is the context in which its condition is checked as
part of the query, so that the report on the query is the one on its condition, behind the issues
of the aliases that are declared more than once and of the type of the outermost entity.

* `Aliases.mem_duplicates`, `Aliases.pairwise_duplicates`: the aliases declared more than once.
* `validate_eq_validateCondition`: the two reports.
-/
import NodeQuery.Proofs.Occurrences

namespace NodeQuery

/-! ### The aliases declared more than once -/

namespace Aliases

variable {as : Aliases} {name : String}

theorem mem_duplicates :
    name ∈ as.duplicates ↔ 2 ≤ (as.declarations.map Prod.fst).count name := by
  rw [duplicates, names, List.mem_filter, List.mem_eraseDups, decide_eq_true_eq]
  refine and_iff_right_of_imp fun h => ?_
  exact List.count_pos_iff.mp (Nat.zero_lt_of_lt h)

theorem pairwise_duplicates (as : Aliases) : as.duplicates.Pairwise fun x y =>
    (as.declarations.map Prod.fst).idxOf x < (as.declarations.map Prod.fst).idxOf y :=
  (List.pairwise_idxOf_eraseDups _).filter _

/-- Each alias is reported once. -/
theorem nodup_duplicates (as : Aliases) : as.duplicates.Nodup :=
  as.pairwise_duplicates.imp fun h heq => absurd h (by rw [heq]; exact Nat.lt_irrefl _)

end Aliases

/-! ### The two reports -/

namespace Validation

/-- A condition by itself is checked in the context of the outermost entity if that one has an
alias. -/
theorem standaloneContext_ofQuery {q : Query} {name : String} (h : q.entity.alias? = some name) :
    standaloneContext (Aliases.ofQuery q) = Context.ofEntity q.entity := by
  have hfirst : (Aliases.ofQuery q).first? = some (name, q) := by
    simp [Aliases.first?, Aliases.ofQuery, Query.queries, h]
  rw [standaloneContext, hfirst, Context.ofEntity, Entity.referenceName, h]
  rfl

end Validation

/-- The report on a query whose entity has an alias is the report on its condition by itself, with
the same warnings. Two kinds of issues come in front: one for each alias that is declared more than
once, in the order of first declarations, if these are reported; and one if the entity has a type
that no node has. -/
theorem validate_eq_validateCondition (settings : Settings) {q : Query} {name : String}
    (h : q.entity.alias? = some name) :
    let aliases := Aliases.ofQuery q
    let declared := q.entities.filterMap Entity.alias?
    let alone := validateCondition settings aliases q.condition
    (validate settings q).warnings = alone.warnings
      ∧ (validate settings q).issues
        = (if settings.reportDuplicateAliases then aliases.duplicates.map Issue.ofDuplicateAlias
            else [])
          ++ (if q.entity.nodeType ∈ Schema.nodeTypes then []
            else [Issue.ofNodeType settings.nodeTypeSample q.entity.nodeType])
          ++ alone.issues
      ∧ (∀ x, x ∈ aliases.duplicates ↔ 2 ≤ declared.count x)
      ∧ aliases.duplicates.Nodup
      ∧ aliases.duplicates.Pairwise (fun x y => declared.idxOf x < declared.idxOf y) := by
  intro aliases declared alone
  have hdeclared : aliases.declarations.map Prod.fst = declared := map_fst_declarations q
  have halone : alone = Report.ofFindings (Validation.checkCondition settings aliases
      (Validation.Context.ofEntity q.entity) q.condition) := by
    rw [← Validation.standaloneContext_ofQuery h]
    rfl
  rw [validate_eq, halone]
  refine ⟨rfl, rfl, ?_, aliases.nodup_duplicates, ?_⟩
  · rw [← hdeclared]
    exact fun _ => Aliases.mem_duplicates
  · rw [← hdeclared]
    exact aliases.pairwise_duplicates

/-- The outermost alias is declared again further inside, and another name stands for nothing. -/
theorem validate_eq_validateCondition_repeated :
    let q : Query := ⟨⟨"call", some "a"⟩, .group .conj [
      .relation ⟨"a", ["arguments"]⟩ .contains ⟨"literal", some "a"⟩
        (.value ⟨⟨"a", ["operator"]⟩, .equal, "instanceof"⟩) {},
      .value ⟨⟨"b", ["name"]⟩, .equal, "c"⟩], {}⟩
    let alone := validateCondition {} (Aliases.ofQuery q) q.condition
    q.entity.alias? = some "a"
      ∧ (validate {} q).issues = Issue.ofDuplicateAlias "a" :: Issue.ofNodeType 10 "call"
          :: alone.issues
      ∧ alone.issues.map Issue.kind = [.invalidValue, .missingAlias] := by
  intro q alone
  have hname : q.entity.alias? = some "a" := rfl
  obtain ⟨-, hissues, -⟩ := validate_eq_validateCondition {} hname
  refine ⟨hname, ?_, by decide +kernel⟩
  rw [hissues]
  have hduplicates : (Aliases.ofQuery q).duplicates = ["a"] := by decide +kernel
  rw [hduplicates]
  rfl

end NodeQuery
