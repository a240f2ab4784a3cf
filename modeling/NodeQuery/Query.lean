/-
Queries over the nodes of a syntax tree.

A query declares an entity, a node type that may be given an alias, and states a condition
on it. A condition compares an attribute with a literal, relates an attribute to a nested
query, negates a condition, or joins several.

An attribute is a name followed by properties. Its path joins them with dots, and a dotted
path that has no empty segment names one attribute. An alias may be declared more than once. It
then stands for the last of its declarations, in the order of `Query.queries`.

* `Attribute.path`, `Attribute.ofPath?`: attributes and dotted paths.
* `Condition`, `Query`: the trees. A nested query is held by its three parts, so that
  conditions are one inductive type; `Condition.relate` builds it from a query.
* `Condition.atomics`: the leaves of a condition, from left to right.
* `Query.queries`: a query and all queries nested in it, each in front of those inside it.
* `Query.withPlaceholder`: the query that says no more of an entity than what it is.
* `Aliases`: the declarations in a query, in order; `Aliases.find?`: the query for which an alias
  stands.
* `Aliases.names`, `Aliases.duplicates`: the aliases, and those declared more than once.
-/
import NodeQuery.Text
import NodeQuery.Token

namespace NodeQuery

/-! ## Attributes -/

/-- A name and the properties reached from it, outermost first. -/
structure Attribute where
  name : String
  properties : List String
  deriving DecidableEq, Repr

namespace Attribute

/-- The attribute that is a node itself. -/
def node (name : String) : Attribute :=
  ⟨name, []⟩

/-- The property nearest to the node. -/
def firstProperty? (a : Attribute) : Option String :=
  a.properties.head?

/-- The name and the properties with dots between them. -/
def path (a : Attribute) : String :=
  Text.joinWith "." (a.name :: a.properties)

/-- The attribute with a given path, which may hold no empty segment. -/
def ofPath? (path : String) : Option Attribute :=
  let segments := Text.segments '.' path.toList
  if segments.any List.isEmpty then
    none
  else
    match segments with
    | [] => none
    | name :: properties => some ⟨String.ofList name, properties.map String.ofList⟩

end Attribute

/-! ## Conditions and queries -/

/-- The declaration of a node: its type, and a name for it if it has one. -/
structure Entity where
  nodeType : String
  alias? : Option String := none
  deriving DecidableEq, Repr

/-- The name by which conditions speak of the entity: its alias, or else its type. -/
def Entity.referenceName (e : Entity) : String :=
  e.alias?.getD e.nodeType

/-- A comparison of an attribute with a literal, kept as it is written. -/
structure ValueMatch where
  subject : Attribute
  operator : ValueOp
  value : String
  deriving DecidableEq, Repr

/-- Where the parts of a query stand in the text from which it was read. A query that was
not read from a text has no such places, and one without a `where` has only the first. -/
structure QuerySpans where
  entity : Option Span := none
  whereWord : Option Span := none
  condition : Option Span := none
  deriving DecidableEq, Repr

/-- A condition on a node. -/
inductive Condition where
  | value (comparison : ValueMatch)
  | relation (subject : Attribute) (operator : RelOp) (entity : Entity) (inner : Condition)
      (spans : QuerySpans)
  | negation (inner : Condition)
  | group (connective : Connective) (members : List Condition)
  deriving Repr

/-- A declared entity and the condition on it. -/
structure Query where
  entity : Entity
  condition : Condition
  spans : QuerySpans := {}
  deriving Repr

/-- A leaf of a condition. -/
inductive Atomic where
  | value (comparison : ValueMatch)
  | relation (subject : Attribute) (operator : RelOp) (query : Query)
  deriving Repr

namespace Atomic

/-- The attribute of which the leaf speaks. -/
def subject : Atomic → Attribute
  | value m => m.subject
  | relation a _ _ => a

/-- The spelling of the leaf's operator. -/
def operator : Atomic → String
  | value m => m.operator.spelling
  | relation _ op _ => op.spelling

/-- The query nested in the leaf, if there is one. -/
def query? : Atomic → Option Query
  | value _ => none
  | relation _ _ q => some q

end Atomic

namespace Condition

/-- The condition that relates an attribute to a query. -/
def relate (subject : Attribute) (operator : RelOp) (query : Query) : Condition :=
  .relation subject operator query.entity query.condition query.spans

/-- The condition that is a leaf. -/
def ofAtomic : Atomic → Condition
  | .value m => .value m
  | .relation a op q => relate a op q

/-- The condition that an entity is of its type, which says nothing new about it. -/
def placeholder (e : Entity) : Condition :=
  .value ⟨Attribute.node e.referenceName, .is, e.nodeType⟩

/-- The leaf that a condition consists of, if it is one. -/
def atomic? : Condition → Option Atomic
  | value m => some (.value m)
  | relation a op e c spans => some (.relation a op ⟨e, c, spans⟩)
  | _ => none

/-- The conditions directly inside a condition; nested queries are not looked into. -/
def children : Condition → List Condition
  | negation c => [c]
  | group _ cs => cs
  | _ => []

/-- Whether the condition is exactly the placeholder of an entity. -/
def isPlaceholder (e : Entity) : Condition → Bool
  | value m => m = ⟨Attribute.node e.referenceName, .is, e.nodeType⟩
  | _ => false

mutual

/-- The leaves of a condition, from left to right; nested queries are not looked into. -/
def atomics : Condition → List Atomic
  | value m => [.value m]
  | relation a op e c spans => [.relation a op ⟨e, c, spans⟩]
  | negation c => c.atomics
  | group _ cs => atomicsOfAll cs

/-- The leaves of conditions, one condition after the other. -/
def atomicsOfAll : List Condition → List Atomic
  | [] => []
  | c :: cs => c.atomics ++ atomicsOfAll cs

end

theorem atomicsOfAll_eq_flatMap (cs : List Condition) :
    atomicsOfAll cs = cs.flatMap atomics := by
  induction cs with
  | nil => rfl
  | cons c cs ih => rw [atomicsOfAll, ih, List.flatMap_cons]

mutual

/-- All queries inside a condition, at any depth, each in front of those inside it. -/
def queries : Condition → List Query
  | value _ => []
  | relation _ _ e c spans => ⟨e, c, spans⟩ :: c.queries
  | negation c => c.queries
  | group _ cs => queriesOfAll cs

/-- All queries inside conditions, one condition after the other. -/
def queriesOfAll : List Condition → List Query
  | [] => []
  | c :: cs => c.queries ++ queriesOfAll cs

end

theorem queriesOfAll_eq_flatMap (cs : List Condition) :
    queriesOfAll cs = cs.flatMap queries := by
  induction cs with
  | nil => rfl
  | cons c cs ih => rw [queriesOfAll, ih, List.flatMap_cons]

end Condition

namespace Query

/-- The query whose condition is the placeholder of its entity. -/
def withPlaceholder (e : Entity) : Query :=
  ⟨e, Condition.placeholder e, {}⟩

/-- The query and all queries nested in it, each in front of those inside it. -/
def queries (q : Query) : List Query :=
  q :: q.condition.queries

/-- The queries directly inside the query's condition. -/
def nestedQueries (q : Query) : List Query :=
  q.condition.atomics.filterMap Atomic.query?

end Query

/-! ## Aliases -/

/-- The aliases declared in a query, each with the query that declares it. -/
structure Aliases where
  declarations : List (String × Query)

namespace Aliases

/-- The declarations in a query. -/
def ofQuery (q : Query) : Aliases :=
  ⟨q.queries.filterMap fun p => p.entity.alias?.map fun name => (name, p)⟩

/-- The query for which an alias stands, the last that declares it. -/
def find? (as : Aliases) (name : String) : Option Query :=
  (as.declarations.reverse.find? fun d => d.1 = name).map Prod.snd

/-- Whether an alias is declared. -/
def contains (as : Aliases) (name : String) : Bool :=
  (as.find? name).isSome

/-- The first declaration. -/
def first? (as : Aliases) : Option (String × Query) :=
  as.declarations.head?

/-- The aliases, each once, in the order of their first declarations. -/
def names (as : Aliases) : List String :=
  (as.declarations.map Prod.fst).eraseDups

/-- The aliases that are declared more than once, in the order of their first declarations. -/
def duplicates (as : Aliases) : List String :=
  as.names.filter fun name => 1 < (as.declarations.map Prod.fst).count name

/-- The number of aliases. -/
def size (as : Aliases) : Nat :=
  as.names.length

/-- Whether no alias is declared. -/
def isEmpty (as : Aliases) : Bool :=
  as.declarations.isEmpty

end Aliases

end NodeQuery
