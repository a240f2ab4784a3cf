/-
Checking queries against the schema, and mending them.

Every leaf of a condition is checked by itself: its name must be an alias declared
somewhere in the query, or else the name of the entity that the condition is about; its
first property must be one that can be evaluated on the node so named. A relation is
checked in front of its nested query. Names resolve to the last declaration of an alias.

* `Issue`: an error, with a suggestion how to mend it.
* `Report`: the issues found, and warnings, which never make a query invalid.
* `Finding`: an issue or a warning.
* `Validation.checkCondition`: the findings in a condition, in order.
* `validate`, `validateCondition`: the report on a query, and on a condition by itself.
* `suggestFix?`: the condition to put in place of the one that an issue is about.
* `fixMessage`: issues and suggestions as a text to act on.
-/
import NodeQuery.Query.Printer
import NodeQuery.Schema
import NodeQuery.Settings.Reader

namespace NodeQuery

/-! ## Issues -/

/-- The kinds of issues. -/
inductive Issue.Kind where
  | invalidNodeType
  | invalidProperty
  | unsupportedPath
  | invalidValue
  | missingAlias
  | duplicateAlias
  deriving DecidableEq, Repr

/-- The name of a kind of issue. -/
def Issue.Kind.name : Issue.Kind → String
  | invalidNodeType => "INVALID_NODE_TYPE"
  | invalidProperty => "INVALID_PROPERTY"
  | unsupportedPath => "UNSUPPORTED_PROPERTY_PATH"
  | invalidValue => "INVALID_VALUE_FOR_PROPERTY"
  | missingAlias => "MISSING_ALIAS"
  | duplicateAlias => "DUPLICATE_ALIAS"

/-- Something wrong with a query. -/
structure Issue where
  kind : Issue.Kind
  message : String
  suggestion? : Option String := none
  deriving DecidableEq, Repr

/-- The report of an issue. -/
def Issue.render (i : Issue) : String :=
  i.kind.name ++ ": " ++ i.message

/-- The issues found in a query or a condition, and the warnings. -/
structure Report where
  issues : List Issue
  warnings : List String := []
  deriving DecidableEq, Repr

namespace Report

/-- A query is valid if it has no issue. -/
def isValid (r : Report) : Bool :=
  r.issues.isEmpty

/-- The issues of one kind. -/
def issuesOf (r : Report) (kind : Issue.Kind) : List Issue :=
  r.issues.filter (·.kind = kind)

/-- Whether there is an issue of a kind. -/
def has (r : Report) (kind : Issue.Kind) : Bool :=
  r.issues.any (·.kind = kind)

/-- The report of a single issue. -/
def ofIssue (i : Issue) : Report :=
  ⟨[i], []⟩

end Report

/-! ## Checks -/

/-- What a check finds. -/
inductive Finding where
  | issue (i : Issue)
  | warning (text : String)
  deriving DecidableEq, Repr

/-- The issue, unless the finding is a warning. -/
def Finding.issue? : Finding → Option Issue
  | issue i => some i
  | warning _ => none

/-- The warning, unless the finding is an issue. -/
def Finding.warning? : Finding → Option String
  | issue _ => none
  | warning text => some text

/-- The report on findings. -/
def Report.ofFindings (findings : List Finding) : Report :=
  ⟨findings.filterMap Finding.issue?, findings.filterMap Finding.warning?⟩

/-! ### The issues and warnings -/

namespace Issue

/-- An entity has a type that no node has; `sample` types are named instead. -/
def ofNodeType (sample : Nat) (nodeType : String) : Issue :=
  ⟨.invalidNodeType, "Invalid node type: " ++ nodeType,
    some ("Valid node types include: "
      ++ ", ".intercalate (Schema.sortedNodeTypes.take sample) ++ "...")⟩

/-- A condition speaks of a name that is not declared. -/
def ofMissingAlias (name : String) : Issue :=
  ⟨.missingAlias, "Alias '" ++ name ++ "' is not defined",
    some ("Make sure to declare the node with alias '" ++ name ++ "' before using it")⟩

/-- An alias is declared more than once. -/
def ofDuplicateAlias (name : String) : Issue :=
  ⟨.duplicateAlias, "Alias '" ++ name ++ "' is declared more than once",
    some ("Rename one of the declarations; conditions on '" ++ name
      ++ "' resolve to the last one")⟩

/-- The suggestion to ask for the type of a node, left open when it is not known. -/
def typeCheck (name : String) : Option String → String
  | some nodeType => name ++ " is " ++ nodeType
  | none => "use " ++ name ++ " is <nodeType> instead"

/-- A comparison, on a node of type `target`, of a property that cannot be evaluated. If the
value is an operator with a node type of its own, that type is suggested. -/
def ofUnsupportedValue (m : ValueMatch) (target property : String) : Issue :=
  let nodeType? :=
    if property = "operator" && (m.operator = .is || m.operator = .equal) then
      Schema.operatorNodeType? (Literal.unquote m.value)
    else
      none
  ⟨.unsupportedPath,
    "Property '" ++ property ++ "' is not supported on node type '" ++ target ++ "'. Found: "
      ++ m.subject.path ++ " " ++ m.operator.spelling ++ " " ++ m.value,
    some (typeCheck m.subject.name nodeType?)⟩

/-- A relation, on a node of type `target`, of a property that cannot be evaluated. -/
def ofUnsupportedRelation (a : Attribute) (target property : String) : Issue :=
  ⟨.unsupportedPath,
    "Property '" ++ property ++ "' is not supported on node type '" ++ target ++ "'",
    some (typeCheck a.name none)⟩

/-- A comparison with a value in whose place a node type should be asked for. -/
def ofHintedValue (m : ValueMatch) (property nodeType : String) : Issue :=
  ⟨.invalidValue,
    "Value '" ++ m.value ++ "' for property '" ++ property
      ++ "' should be replaced with node type check",
    some (typeCheck m.subject.name (some nodeType))⟩

end Issue

namespace Validation

/-- A property is known neither of a node type nor of nodes in general. -/
def unknownPropertyWarning (nodeType property : String) : String :=
  let known := ((Schema.propertiesOf? nodeType).getD []).mergeSort fun a b => a ≤ b
  "Property '" ++ property ++ "' on node type '" ++ nodeType
    ++ "' may not be valid. Valid properties for this node type: "
    ++ if known.isEmpty then "none" else ", ".intercalate known

/-- A further property is asked for behind a property that stands for several nodes. -/
def severalNodesWarning (a : Attribute) (property : String) : String :=
  "Property '" ++ property ++ "' holds several nodes; use '" ++ a.name ++ "." ++ property
    ++ " contain <query>' instead of '" ++ a.path ++ "'"

/-! ### Leaves -/

/-- The entity that a condition is about: its type, and the name for it if it has one. -/
structure Context where
  nodeType : String
  name? : Option String
  deriving DecidableEq, Repr

/-- The context of the conditions on an entity. -/
def Context.ofEntity (e : Entity) : Context :=
  ⟨e.nodeType, some e.referenceName⟩

/-- The type of the node that a name stands for, if it stands for one. -/
def resolve? (aliases : Aliases) (context : Context) (name : String) : Option String :=
  match aliases.find? name with
  | some q => some q.entity.nodeType
  | none => if context.name? = some name then some context.nodeType else none

/-- The warnings about a property of a node of type `target`. -/
def checkProperty (a : Attribute) (target property : String) : List Finding :=
  let isKnown := ((Schema.propertiesOf? target).getD []).contains property
  (if isKnown || Schema.isProperty property then []
    else [.warning (unknownPropertyWarning target property)])
  ++ if 1 < a.properties.length && (Schema.role? property).any (!·.allowsDot) then
      [.warning (severalNodesWarning a property)]
    else []

/-- The findings about the value of a comparison whose property can be evaluated. -/
def checkHint (m : ValueMatch) (property : String) : List Finding :=
  let value := Literal.unquote m.value
  if m.operator = .is && Schema.isNodeType value then
    []
  else
    match Schema.valueHint? property value with
    | some nodeType => [.issue (Issue.ofHintedValue m property nodeType)]
    | none => []

/-- The findings about a comparison. -/
def checkValue (aliases : Aliases) (context : Context) (m : ValueMatch) : List Finding :=
  match resolve? aliases context m.subject.name, m.subject.firstProperty? with
  | none, _ => [.issue (Issue.ofMissingAlias m.subject.name)]
  | some _, none => []
  | some target, some property =>
    if Schema.isUnsupported target property then
      [.issue (Issue.ofUnsupportedValue m target property)]
    else
      checkProperty m.subject target property ++ checkHint m property

/-- The findings about the attribute of a relation. -/
def checkRelation (aliases : Aliases) (context : Context) (a : Attribute) : List Finding :=
  match resolve? aliases context a.name, a.firstProperty? with
  | none, _ => [.issue (Issue.ofMissingAlias a.name)]
  | some _, none => []
  | some target, some property =>
    if Schema.isUnsupported target property then
      [.issue (Issue.ofUnsupportedRelation a target property)]
    else
      checkProperty a target property

/-- The findings about the declaration of an entity. -/
def checkEntity (settings : Settings) (e : Entity) : List Finding :=
  if Schema.isNodeType e.nodeType then
    []
  else
    [.issue (Issue.ofNodeType settings.nodeTypeSample e.nodeType)]

/-! ### Conditions and queries -/

mutual

/-- The findings in a condition, in the order of its leaves. -/
def checkCondition (settings : Settings) (aliases : Aliases) (context : Context) :
    Condition → List Finding
  | .value m => checkValue aliases context m
  | .relation a _ e c _ =>
    checkRelation aliases context a ++ checkEntity settings e
      ++ checkCondition settings aliases (Context.ofEntity e) c
  | .negation c => checkCondition settings aliases context c
  | .group _ cs => checkAll settings aliases context cs

/-- The findings in conditions, one condition after the other. -/
def checkAll (settings : Settings) (aliases : Aliases) (context : Context) :
    List Condition → List Finding
  | [] => []
  | c :: cs => checkCondition settings aliases context c ++ checkAll settings aliases context cs

end

/-- The findings in a query whose names stand for what `aliases` says. -/
def checkQuery (settings : Settings) (aliases : Aliases) (q : Query) : List Finding :=
  checkEntity settings q.entity
    ++ checkCondition settings aliases (Context.ofEntity q.entity) q.condition

/-- The issues of aliases that are declared more than once. -/
def checkDuplicates (settings : Settings) (aliases : Aliases) : List Finding :=
  if settings.reportDuplicateAliases then
    aliases.duplicates.map fun name => .issue (Issue.ofDuplicateAlias name)
  else
    []

/-- The context of a condition that stands by itself: the first entity with an alias. -/
def standaloneContext (aliases : Aliases) : Context :=
  match aliases.first? with
  | some (name, q) => ⟨q.entity.nodeType, some name⟩
  | none => ⟨"unknown", none⟩

end Validation

/-- The report on a query. -/
def validate (settings : Settings) (q : Query) : Report :=
  let aliases := Aliases.ofQuery q
  Report.ofFindings
    (Validation.checkDuplicates settings aliases ++ Validation.checkQuery settings aliases q)

/-- The report on a condition that is no part of a query, under the aliases of one. -/
def validateCondition (settings : Settings) (aliases : Aliases) (c : Condition) : Report :=
  Report.ofFindings
    (Validation.checkCondition settings aliases (Validation.standaloneContext aliases) c)

/-! ## Fixes -/

/-- The leaves of a query and of all queries nested in it, query by query. -/
def Query.allAtomics (q : Query) : List Atomic :=
  q.queries.flatMap fun p => p.condition.atomics

/-- The condition to put in place of the one that an issue is about. Of a property that
cannot be evaluated, the first comparison of an operator in the query decides. -/
def suggestFix? (i : Issue) (q : Query) : Option String :=
  match i.kind with
  | .unsupportedPath =>
    if i.suggestion?.isNone then
      none
    else
      match q.allAtomics.find? fun a => a.subject.firstProperty? = some "operator" with
      | some (.value m) =>
        (Schema.valueHint? "operator" (Literal.unquote m.value)).map fun nodeType =>
          m.subject.name ++ " is " ++ nodeType
      | _ => none
  | .invalidValue => i.suggestion?
  | _ => none

/-- The lines for an issue that is the `number`-th of several. -/
def Issue.fixLines (number : Nat) (i : Issue) : List String :=
  [toString number ++ ". " ++ i.message]
    ++ (i.suggestion?.map fun s => "   Suggestion: " ++ s).toList ++ [""]

/-- The lines for issues, numbered from `number` on. -/
def fixLines (number : Nat) : List Issue → List String
  | [] => []
  | i :: is => i.fixLines number ++ fixLines (number + 1) is

/-- Issues and suggestions as a text to act on, which is empty if there is no issue. -/
def fixMessage (issues : List Issue) : String :=
  if issues.isEmpty then
    ""
  else
    "\n".intercalate ("DSL Validation Errors Found:\n" :: fixLines 1 issues)

end NodeQuery
