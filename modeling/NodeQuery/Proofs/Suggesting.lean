/-
Suggestions, and the fixes that are proposed for issues.

The issue of a property that cannot be evaluated suggests to ask for a node type, which is named if
the leaf asserts that the node has an operator with a node type of its own. The fix for it is not
made from the issue but from the first leaf in the query that speaks of an operator, whether that
leaf is the one in question or not, and whether it asserts the operator or denies it. So the fix is
the suggestion just if the two leaves call for the same node type under the same name.

* `Issue.Proposes`: an issue suggests to ask for a node type that it names.
* `Atomic.operatorType?`, `Atomic.assertedType?`: the node types for which leaves call.
* `Query.suggestion?_of_unsupportedPath`, `Query.suggestion?_of_invalidValue`: the suggestions.
* `Query.operatorLeaf?`: the leaf from which fixes are made.
* `Issue.IsFixedAsProposed`: the fix for an issue is what it suggests;
  `isFixedAsProposed_iff`: when that is so.
-/
import NodeQuery.Proofs.Naming
import NodeQuery.Proofs.Occurrences
import NodeQuery.Validation

namespace NodeQuery

/-! ### Node types that are suggested -/

/-- The issue suggests to ask whether `name` is of a node type. -/
def Issue.Proposes (i : Issue) (name nodeType : String) : Prop :=
  i.suggestion? = some (name ++ " is " ++ nodeType) ∧ nodeType ∈ Schema.nodeTypes

namespace Schema

theorem mem_of_operatorNodeType? {operator nodeType : String}
    (h : operatorNodeType? operator = some nodeType) : nodeType ∈ nodeTypes := by
  have hall : ∀ p ∈ operatorNodeTypes, p.2 ∈ nodeTypes := by decide
  exact hall _ (List.mem_of_lookup h)

theorem mem_of_valueHint? {property value nodeType : String}
    (h : valueHint? property value = some nodeType) : nodeType ∈ nodeTypes := by
  have hall : ∀ p ∈ valueHints, ∀ r ∈ p.2, r.2 ∈ nodeTypes := by decide
  obtain ⟨hints, hproperty, hvalue⟩ := Option.bind_eq_some_iff.mp h
  exact hall _ (List.mem_of_lookup hproperty) _ (List.mem_of_lookup hvalue)

theorem valueHint?_operator (value : String) :
    valueHint? "operator" value = operatorNodeType? value := rfl

theorem eq_operator_of_mem_unsupportedPaths {target property : String}
    (h : (target, property) ∈ unsupportedPaths) : property = "operator" := by
  have hall : ∀ p ∈ unsupportedPaths, p.2 = "operator" := by decide
  exact hall _ h

theorem isName_of_mem_nodeTypes : ∀ t ∈ nodeTypes, Literal.isName t = true := by
  decide +kernel

theorem blank_not_mem_of_mem_nodeTypes {t : String} (h : t ∈ nodeTypes) : ' ' ∉ t.toList := by
  intro hblank
  have hpart := Literal.isWordPart_of_isName (isName_of_mem_nodeTypes t h) ' ' hblank
  exact absurd hpart (by decide)

end Schema

namespace Issue

/-- No node type is named by the suggestion that leaves the node type open. -/
theorem typeCheck_none_ne {name other nodeType : String} (h : nodeType ∈ Schema.nodeTypes) :
    typeCheck name none ≠ other ++ " is " ++ nodeType := by
  intro heq
  have hsplit : "use " ++ name ++ " is <nodeType>" ++ " " ++ "instead"
      = other ++ " is" ++ " " ++ nodeType := by
    simpa [typeCheck, String.append_assoc] using heq
  obtain ⟨-, rfl⟩ :=
    String.append_word_inj (by decide) (Schema.blank_not_mem_of_mem_nodeTypes h) hsplit
  exact absurd h (by decide)

theorem typeCheck_some_inj {name other nodeType otherType : String}
    (h : nodeType ∈ Schema.nodeTypes) (h' : otherType ∈ Schema.nodeTypes)
    (heq : name ++ " is " ++ nodeType = other ++ " is " ++ otherType) :
    name = other ∧ nodeType = otherType := by
  have hsplit : name ++ " is" ++ " " ++ nodeType = other ++ " is" ++ " " ++ otherType := by
    simpa [String.append_assoc] using heq
  obtain ⟨hname, htype⟩ := String.append_word_inj (Schema.blank_not_mem_of_mem_nodeTypes h)
    (Schema.blank_not_mem_of_mem_nodeTypes h') hsplit
  exact ⟨by simpa using hname, htype⟩

/-- What is proposed by an issue that suggests to ask for a node type, named or left open. -/
theorem proposes_iff {i : Issue} {name other nodeType : String} {nodeType? : Option String}
    (hsuggestion : i.suggestion? = some (typeCheck name nodeType?))
    (hknown : ∀ t ∈ nodeType?, t ∈ Schema.nodeTypes) :
    i.Proposes other nodeType ↔ other = name ∧ nodeType? = some nodeType := by
  rw [Proposes, hsuggestion, Option.some_inj]
  cases nodeType? with
  | none => exact iff_of_false (fun h => typeCheck_none_ne h.2 h.1) (by simp)
  | some t =>
    constructor
    · rintro ⟨heq, hmem⟩
      obtain ⟨rfl, rfl⟩ := typeCheck_some_inj (hknown t rfl) hmem heq
      exact ⟨rfl, rfl⟩
    · rintro ⟨rfl, heq⟩
      obtain rfl := Option.some_inj.mp heq
      exact ⟨rfl, hknown t rfl⟩

end Issue

/-! ### The node types for which leaves call -/

namespace Atomic

/-- The node type that goes with the operator with which a leaf compares something. -/
def operatorType? : Atomic → Option String
  | value m => Schema.operatorNodeType? (Literal.unquote m.value)
  | relation .. => none

/-- The node type that goes with the operator that a node has according to a leaf. -/
def assertedType? : Atomic → Option String
  | value m =>
    if m.operator = .is ∨ m.operator = .equal then (value m).operatorType? else none
  | relation .. => none

theorem mem_of_operatorType? {l : Atomic} {nodeType : String}
    (h : l.operatorType? = some nodeType) : nodeType ∈ Schema.nodeTypes := by
  cases l with
  | value m => exact Schema.mem_of_operatorNodeType? h
  | relation a op p => cases h

theorem mem_of_assertedType? {l : Atomic} {nodeType : String}
    (h : l.assertedType? = some nodeType) : nodeType ∈ Schema.nodeTypes := by
  cases l with
  | value m =>
    rw [assertedType?] at h
    split_ifs at h
    exact mem_of_operatorType? h
  | relation a op p => cases h

theorem suggestion?_unsupported (l : Atomic) (target : String) :
    (l.unsupported target "operator").suggestion?
      = some (Issue.typeCheck l.subject.name l.assertedType?) := by
  cases l with
  | value m => simp [unsupported, Issue.ofUnsupportedValue, assertedType?, operatorType?, subject]
  | relation a op p => rfl

end Atomic

/-! ### The suggestions -/

namespace Query

variable {q : Query} {o : Occurrence} {i : Issue}

/-- Only operators cannot be evaluated. The node type to ask for is named if the leaf calls for
one. -/
theorem suggestion?_of_unsupportedPath (hi : q.issueAt? o = some i)
    (hkind : i.kind = .unsupportedPath) : o.atomic.subject.firstProperty? = some "operator"
      ∧ i.suggestion? = some (Issue.typeCheck o.name o.atomic.assertedType?) := by
  obtain ⟨-, rfl⟩ | ⟨-, property, hproperty, ⟨hbarred, rfl⟩ | ⟨-, hhint⟩⟩ :=
    issueAt?_eq_some_iff.mp hi
  · cases hkind
  · obtain rfl := Schema.eq_operator_of_mem_unsupportedPaths hbarred
    exact ⟨hproperty, Atomic.suggestion?_unsupported ..⟩
  · rw [Atomic.kind_of_hint? hhint] at hkind
    cases hkind

/-- In place of a value a node type is always named. -/
theorem suggestion?_of_invalidValue (hi : q.issueAt? o = some i) (hkind : i.kind = .invalidValue) :
    ∃ nodeType ∈ Schema.nodeTypes,
      i.suggestion? = some (Issue.typeCheck o.name (some nodeType)) := by
  obtain ⟨-, rfl⟩ | ⟨-, property, -, ⟨-, rfl⟩ | ⟨-, hhint⟩⟩ := issueAt?_eq_some_iff.mp hi
  · cases hkind
  · rw [Atomic.kind_unsupported] at hkind
    cases hkind
  · obtain ⟨host, m | ⟨a, op, p⟩⟩ := o
    · rw [Atomic.hint?] at hhint
      split_ifs at hhint
      obtain ⟨nodeType, hnodeType, rfl⟩ := Option.map_eq_some_iff.mp hhint
      exact ⟨nodeType, Schema.mem_of_valueHint? hnodeType, rfl⟩
    · cases hhint

/-- Of a leaf it is suggested, if anything is, to ask for the type of the node that it speaks
of. -/
theorem exists_suggestion?_eq (hi : q.issueAt? o = some i)
    (hkind : i.kind = .unsupportedPath ∨ i.kind = .invalidValue) :
    ∃ nodeType? : Option String, (∀ t ∈ nodeType?, t ∈ Schema.nodeTypes)
      ∧ i.suggestion? = some (Issue.typeCheck o.name nodeType?) := by
  rcases hkind with hkind | hkind
  · exact ⟨_, fun t => Atomic.mem_of_assertedType?, (suggestion?_of_unsupportedPath hi hkind).2⟩
  · obtain ⟨nodeType, hmem, hsuggestion⟩ := suggestion?_of_invalidValue hi hkind
    refine ⟨_, ?_, hsuggestion⟩
    rintro t ⟨⟩
    exact hmem

/-- What is proposed is to ask for the type of the node that the leaf speaks of. -/
theorem eq_name_of_proposes {name nodeType : String} (hi : q.issueAt? o = some i)
    (hkind : i.kind = .unsupportedPath ∨ i.kind = .invalidValue)
    (h : i.Proposes name nodeType) : name = o.name := by
  obtain ⟨nodeType?, hknown, hsuggestion⟩ := exists_suggestion?_eq hi hkind
  exact ((Issue.proposes_iff hsuggestion hknown).mp h).1

end Query

/-! ### The fixes -/

/-- The fix for an issue is to ask for the node type that the issue proposes to ask for, if it
proposes that, and there is none if it does not. -/
def Issue.IsFixedAsProposed (i : Issue) (q : Query) : Prop :=
  ∀ s, suggestFix? i q = some s ↔
    ∃ name nodeType, i.Proposes name nodeType ∧ s = name ++ " is " ++ nodeType

/-- The first leaf that speaks of an operator, query by query. -/
def Query.operatorLeaf? (q : Query) : Option Atomic :=
  q.allAtomics.find? fun l => l.subject.firstProperty? = some "operator"

theorem Query.exists_operatorLeaf? {q : Query} {o : Occurrence} (ho : o ∈ q.occurrences)
    (hoperator : o.atomic.subject.firstProperty? = some "operator") :
    ∃ l, q.operatorLeaf? = some l := by
  rw [← Option.isSome_iff_exists, operatorLeaf?, List.find?_isSome]
  obtain ⟨p, hp, -, hl⟩ := mem_occurrences.mp ho
  exact ⟨o.atomic, List.mem_flatMap.mpr ⟨p, hp, hl⟩, by simpa using hoperator⟩

namespace Issue

variable {q : Query} {i : Issue}

theorem suggestFix?_of_unsupportedPath {l : Atomic} (hkind : i.kind = .unsupportedPath)
    (hsuggestion : i.suggestion?.isNone = false) (hl : q.operatorLeaf? = some l) :
    suggestFix? i q = l.operatorType?.map fun t => l.subject.name ++ " is " ++ t := by
  rw [Query.operatorLeaf?] at hl
  -- the fix is looked up in the table of hints, which has the same operators
  simp only [suggestFix?, hkind, hsuggestion, hl, Bool.false_eq_true, if_false,
    Schema.valueHint?_operator]
  cases l <;> rfl

/-- The fix for an issue, which is made from a leaf `l`, is as the issue proposes just if both
call for the same node type under the same name. -/
theorem isFixedAsProposed_iff_of_typeCheck {name other : String}
    {nodeType? otherType? : Option String}
    (hsuggestion : i.suggestion? = some (typeCheck name nodeType?))
    (hfix : suggestFix? i q = otherType?.map fun t => other ++ " is " ++ t)
    (hknown : ∀ t ∈ nodeType?, t ∈ Schema.nodeTypes)
    (hother : ∀ t ∈ otherType?, t ∈ Schema.nodeTypes) :
    i.IsFixedAsProposed q ↔ otherType?.map (other, ·) = nodeType?.map (name, ·) := by
  have hproposed : ∀ s, (∃ n t, i.Proposes n t ∧ s = n ++ " is " ++ t)
      ↔ nodeType?.map (fun t => name ++ " is " ++ t) = some s := by
    intro s
    simp only [proposes_iff hsuggestion hknown, Option.map_eq_some_iff]
    constructor
    · rintro ⟨_, t, ⟨rfl, ht⟩, rfl⟩
      exact ⟨t, ht, rfl⟩
    · rintro ⟨t, ht, rfl⟩
      exact ⟨name, t, ⟨rfl, ht⟩, rfl⟩
  simp only [IsFixedAsProposed, hfix, hproposed, ← Option.ext_iff]
  cases otherType? with
  | none => cases nodeType? <;> simp
  | some t =>
    cases nodeType? with
    | none => simp
    | some t' =>
      simp only [Option.map_some, Option.some_inj, Prod.mk.injEq]
      refine ⟨typeCheck_some_inj (hother t rfl) (hknown t' rfl), ?_⟩
      rintro ⟨rfl, rfl⟩
      rfl

theorem isFixedAsProposed_of_invalidValue {o : Occurrence} (hi : q.issueAt? o = some i)
    (hkind : i.kind = .invalidValue) : i.IsFixedAsProposed q := by
  obtain ⟨nodeType, hmem, hsuggestion⟩ := Query.suggestion?_of_invalidValue hi hkind
  have hfix : suggestFix? i q = (some nodeType).map fun t => o.name ++ " is " ++ t := by
    simp only [suggestFix?, hkind, hsuggestion]
    rfl
  have hknown : ∀ t ∈ some nodeType, t ∈ Schema.nodeTypes := by
    rintro t ⟨⟩
    exact hmem
  exact (isFixedAsProposed_iff_of_typeCheck hsuggestion hfix hknown hknown).mpr rfl

theorem isFixedAsProposed_iff_of_unsupportedPath {o : Occurrence} {l : Atomic}
    (hi : q.issueAt? o = some i) (hkind : i.kind = .unsupportedPath)
    (hl : q.operatorLeaf? = some l) : i.IsFixedAsProposed q
      ↔ l.operatorType?.map (l.subject.name, ·) = o.atomic.assertedType?.map (o.name, ·) := by
  obtain ⟨-, hsuggestion⟩ := Query.suggestion?_of_unsupportedPath hi hkind
  have hfix := suggestFix?_of_unsupportedPath hkind (by rw [hsuggestion]; rfl) hl
  exact isFixedAsProposed_iff_of_typeCheck hsuggestion hfix
    (fun t => Atomic.mem_of_assertedType?) (fun t => Atomic.mem_of_operatorType?)

end Issue

/-- An issue of a property or of a value is that of a leaf, and what it proposes is to ask for the
type of the node that the leaf speaks of. If it is about a value, the fix for it is as proposed. If
it is about a property, the fix is as proposed just if the first leaf in the query that speaks of an
operator calls, under the same name, for the node type for which the leaf itself calls. -/
theorem isFixedAsProposed_iff {settings : Settings} {q : Query} {i : Issue}
    (hi : i ∈ (validate settings q).issues)
    (hkind : i.kind = .unsupportedPath ∨ i.kind = .invalidValue) :
    (∃ o ∈ q.occurrences, i ∈ o.issues q)
      ∧ ∀ o ∈ q.occurrences, i ∈ o.issues q →
        (∀ name nodeType, i.Proposes name nodeType → name = o.name)
          ∧ (i.kind = .invalidValue → i.IsFixedAsProposed q)
          ∧ (i.kind = .unsupportedPath → ∃ l, q.operatorLeaf? = some l
            ∧ (i.IsFixedAsProposed q
              ↔ l.operatorType?.map (l.subject.name, ·)
                = o.atomic.assertedType?.map (o.name, ·))) := by
  simp only [Occurrence.issues_eq, Option.mem_toList]
  constructor
  · refine exists_issueAt?_eq hi ?_ ?_
    · rcases hkind with h | h <;> simp [h]
    · rcases hkind with h | h <;> simp [h]
  · intro o ho hissue
    refine ⟨fun name nodeType => Query.eq_name_of_proposes hissue hkind,
      Issue.isFixedAsProposed_of_invalidValue hissue, fun hkind => ?_⟩
    obtain ⟨hoperator, -⟩ := Query.suggestion?_of_unsupportedPath hissue hkind
    obtain ⟨l, hl⟩ := Query.exists_operatorLeaf? ho hoperator
    exact ⟨l, hl, Issue.isFixedAsProposed_iff_of_unsupportedPath hissue hkind hl⟩

/-- The only leaf that speaks of an operator asserts it, in a nested query. -/
theorem isFixedAsProposed_iff_nested :
    let m : ValueMatch := ⟨⟨"b", ["operator"]⟩, .equal, "\"instanceof\""⟩
    let q : Query := ⟨⟨"ifBlock", some "i"⟩, .relation ⟨"i", ["condition"]⟩ .contains
      ⟨"binaryOperation", some "b"⟩ (.value m) {}, {}⟩
    let i := Issue.ofUnsupportedValue m "binaryOperation" "operator"
    i ∈ (validate {} q).issues ∧ i.kind = .unsupportedPath ∧ i.IsFixedAsProposed q
      ∧ suggestFix? i q = some "b is instanceofExpression" := by
  intro m q i
  have hi : i ∈ (validate {} q).issues := by decide +kernel
  have ho : (⟨⟨"binaryOperation", some "b"⟩, .value m⟩ : Occurrence) ∈ q.occurrences :=
    List.mem_cons_of_mem _ (List.mem_singleton_self _)
  have hissue : i ∈ (⟨⟨"binaryOperation", some "b"⟩, .value m⟩ : Occurrence).issues q := by
    decide +kernel
  obtain ⟨-, hall⟩ := isFixedAsProposed_iff hi (.inl rfl)
  obtain ⟨-, -, hproperty⟩ := hall _ ho hissue
  obtain ⟨l, hl, hiff⟩ := hproperty rfl
  have hleaf : q.operatorLeaf? = some (.value m) := by rfl
  obtain rfl := Option.some_inj.mp (hleaf.symm.trans hl)
  exact ⟨hi, rfl, hiff.mpr (by decide +kernel), by decide +kernel⟩

/-- A text with what holds of the query that is read of it. -/
theorem exists_parse_of_any {source : String} {f : Query → Bool}
    (h : (parse source).toOption.any f = true) : ∃ q, parse source = .ok q ∧ f q = true := by
  cases hparse : parse source with
  | error es => simp [hparse, Except.toOption] at h
  | ok q => exact ⟨q, rfl, by simpa [hparse, Except.toOption] using h⟩

/-- Two leaves assert an operator: for the issue of the second one, what is asked of the node of
which the first one speaks is proposed as the fix. -/
theorem not_isFixedAsProposed_second :
    let source := "binaryOperation a where and(a.operator == instanceof, a.lhs contain "
      ++ "binaryOperation b where b.operator == instanceof ;) ;"
    ∃ q i, parse source = .ok q ∧ i ∈ (validate {} q).issues ∧ i.kind = .unsupportedPath
      ∧ i.Proposes "b" "instanceofExpression" ∧ suggestFix? i q = some "a is instanceofExpression"
      ∧ ¬i.IsFixedAsProposed q := by
  intro source
  let m : ValueMatch := ⟨⟨"b", ["operator"]⟩, .equal, "instanceof"⟩
  let i := Issue.ofUnsupportedValue m "binaryOperation" "operator"
  obtain ⟨q, hq, hfacts⟩ := exists_parse_of_any (by decide +kernel :
    ((parse source).toOption.any fun q => decide (i ∈ (validate {} q).issues
      ∧ suggestFix? i q = some "a is instanceofExpression")) = true)
  obtain ⟨hi, hfix⟩ := of_decide_eq_true hfacts
  have hproposes : i.Proposes "b" "instanceofExpression" := ⟨by decide, by decide⟩
  refine ⟨q, i, hq, hi, rfl, hproposes, hfix, fun hfixed => ?_⟩
  have h := (hfixed _).mpr ⟨_, _, hproposes, rfl⟩
  rw [hfix] at h
  exact absurd h (by decide)

end NodeQuery
