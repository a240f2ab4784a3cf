/-
The schema: which nodes there are, and which properties lead from a node to others.

The tables are known not to be complete. What they do not list is therefore worth a
warning at most, except for the node types and the paths that cannot be evaluated.

* `nodeTypes`, `properties`, `propertiesByNode`, `roles`: the tables of nodes and properties.
* `unsupportedPaths`: the properties of nodes that cannot be evaluated.
* `valueHints`, `operatorNodeTypes`: values in whose place a node type should be asked for.
-/
namespace NodeQuery.Schema

/-! ### Tables -/

/-- The node types that can be matched. -/
def nodeTypes : List String :=
  ["binaryOperation", "unaryOperation", "valueDeclaration", "thisExpression", "throwStatement",
    "tryWithResources", "tryBlock", "switchBlock", "synchronizedBlock", "ternaryOperation",
    "thisCall", "returnStatement", "superCall", "nullLiteral", "objectCreationExpression",
    "lambdaExpression", "literal", "methodReferenceExpression", "forBlock", "functionCall",
    "functionDeclaration", "ifBlock", "initArrayExpression", "instanceofExpression",
    "doWhileBlock", "exceptionBlock", "fieldAccess", "forEachBlock", "finallyBlock",
    "defaultStatement", "continueStatement", "catchBlock", "castExpression", "assertStatement",
    "caseStatement", "breakStatement", "anonymousInnerClassExpression", "arrayCreationExpression",
    "arrayAccess", "annotation", "annoMember", "whileBlock"]

/-- The properties that are accepted on any node. -/
def properties : List String :=
  ["body", "arguments", "type", "condition", "returnValue", "operand", "lhs", "rhs", "name",
    "value", "parameters", "base", "baseType", "castType", "arrayIndex", "dimensions",
    "initArray", "elements", "thenBlock", "elseBlock", "thenExpression", "elseExpression",
    "tryBlock", "catchBlocks", "finallyBlock", "tryResources", "forInit", "initialization",
    "iteration", "forIter", "switchSelector", "selector", "caseExpression", "variable",
    "iterable", "forEachVariable", "forEachIterable", "lock", "exceptionTypes",
    "throwExceptionTypes", "annotations", "annoValue", "annoMembers", "anonymousClassBody",
    "generics", "initializer", "variableInit", "message", "assertMessage", "primitiveTypeCode"]

/-- How a property leads from the node that has it to what it stands for. -/
inductive Role where
  | collection
  | body
  | child
  | simple
  deriving DecidableEq, Repr

/-- The name of a role. -/
def Role.name : Role → String
  | collection => "Collection"
  | body => "Body"
  | child => "Child"
  | simple => "Simple"

/-- Whether a further property can be asked for behind a property of this role, which must
then stand for a single node or value. -/
def Role.allowsDot : Role → Bool
  | collection => false
  | body => false
  | child => true
  | simple => true

/-- The roles of properties. -/
def roles : List (String × Role) :=
  [("arguments", .collection), ("parameters", .collection), ("dimensions", .collection),
    ("elements", .collection), ("generics", .collection), ("throwExceptionTypes", .collection),
    ("body", .body), ("thenBlock", .body), ("elseBlock", .body), ("tryBlock", .body),
    ("catchBlocks", .body), ("finallyBlock", .body), ("tryResources", .body),
    ("annoMembers", .body), ("annotations", .body), ("anonymousClassBody", .body),
    ("type", .child), ("condition", .child), ("returnValue", .child), ("operand", .child),
    ("lhs", .child), ("rhs", .child), ("base", .child), ("baseType", .child),
    ("castType", .child), ("arrayIndex", .child), ("initArray", .child),
    ("thenExpression", .child), ("elseExpression", .child), ("forInit", .child),
    ("forIter", .child), ("switchSelector", .child), ("caseExpression", .child),
    ("forEachVariable", .child), ("forEachIterable", .child), ("lock", .child),
    ("annoValue", .child), ("variableInit", .child), ("assertMessage", .child),
    ("value", .simple), ("primitiveTypeCode", .simple)]

/-- The properties that a node type is known to have. -/
def propertiesByNode : List (String × List String) :=
  [("binaryOperation", ["lhs", "rhs"]),
    ("unaryOperation", ["operand"]),
    ("valueDeclaration", ["type", "initializer"]),
    ("functionDeclaration", ["returnType", "parameters", "body", "exceptionTypes"]),
    ("functionCall", ["arguments"]),
    ("ifBlock", ["condition", "thenBlock", "elseBlock"]),
    ("whileBlock", ["condition", "body"]),
    ("forBlock", ["initialization", "condition", "iteration", "body"]),
    ("forEachBlock", ["variable", "iterable", "body"]),
    ("switchBlock", ["selector", "body"]),
    ("caseStatement", ["caseExpression"]),
    ("tryBlock", ["tryBlock", "catchBlocks", "finallyBlock"]),
    ("exceptionBlock", ["tryBlock", "catchBlocks", "finallyBlock"]),
    ("catchBlock", ["parameters", "body"]),
    ("throwStatement", ["operand"]),
    ("returnStatement", ["returnValue"]),
    ("arrayAccess", ["base", "arrayIndex"]),
    ("arrayCreationExpression", ["dimensions", "initArray"]),
    ("initArrayExpression", ["elements"]),
    ("castExpression", ["castType", "operand"]),
    ("fieldAccess", ["base"]),
    ("objectCreationExpression", ["type", "arguments"]),
    ("ternaryOperation", ["condition", "thenExpression", "elseExpression"]),
    ("instanceofExpression", ["lhs", "rhs"]),
    ("annotation", ["annoValue", "annoMembers"]),
    ("literal", ["value"]),
    ("lambdaExpression", ["parameters", "body"])]

/-- The node types and properties that together cannot be evaluated. -/
def unsupportedPaths : List (String × String) :=
  [("binaryOperation", "operator"), ("unaryOperation", "operator"),
    ("postfixOperation", "operator"), ("prefixOperation", "operator")]

/-- For a property and a value of it, the node type that should be asked for instead. -/
def valueHints : List (String × List (String × String)) :=
  [("operator", [("instanceof", "instanceofExpression")])]

/-- The operators that have a node type of their own. -/
def operatorNodeTypes : List (String × String) :=
  [("instanceof", "instanceofExpression")]

/-! ### Looking up -/

/-- Whether a node type can be matched. -/
def isNodeType (name : String) : Bool :=
  nodeTypes.contains name

/-- The node types in alphabetical order. -/
def sortedNodeTypes : List String :=
  nodeTypes.mergeSort fun a b => a ≤ b

/-- Whether a property is accepted on any node. -/
def isProperty (name : String) : Bool :=
  properties.contains name

/-- The properties that a node type is known to have, if it is listed. -/
def propertiesOf? (nodeType : String) : Option (List String) :=
  propertiesByNode.lookup nodeType

/-- The role of a property, if it is listed. -/
def role? (property : String) : Option Role :=
  roles.lookup property

/-- Whether a property of a node type cannot be evaluated. -/
def isUnsupported (nodeType property : String) : Bool :=
  unsupportedPaths.contains (nodeType, property)

/-- Whether values of a property are looked at. -/
def hasValueHints (property : String) : Bool :=
  (valueHints.lookup property).isSome

/-- The node type that should be asked for instead of a value of a property. -/
def valueHint? (property value : String) : Option String :=
  (valueHints.lookup property).bind fun hints => hints.lookup value

/-- The node type of an operator that has one of its own. -/
def operatorNodeType? (operator : String) : Option String :=
  operatorNodeTypes.lookup operator

end NodeQuery.Schema
