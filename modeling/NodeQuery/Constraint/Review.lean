/-
Reviewing constraints in front of a merge.

A constraint goes through a chain of rules, and the first rule that it breaks decides. What
one rule works out, a later one may use: the condition that the constraint describes, and
that condition as it is read again from its text.

* `Rule`: the rules, in the order of the chain; `Rule.check`: what a rule says.
* `Verdict`: what is said of a constraint.
* `review`: the verdict on one constraint; `reviewAll`: the constraints of a list that are
  rejected; `Review.accepted`: the others.
-/
import NodeQuery.Constraint
import NodeQuery.Validation

namespace NodeQuery

/-- What is said of a constraint. One to discard cannot be mended. -/
structure Verdict where
  report : Report
  discard : Bool := false
  deriving DecidableEq, Repr

/-- The verdict on a constraint that breaks no rule. -/
def Verdict.accept : Verdict :=
  ⟨⟨[], []⟩, false⟩

/-- The verdict on a constraint that is rejected for one issue. -/
def Verdict.reject (i : Issue) : Verdict :=
  ⟨Report.ofIssue i, false⟩

/-- The rules that a constraint has to keep. -/
inductive Rule where
  | pathFormat
  | aliasExists
  | noSubQueryOperator
  | conversion
  | grammar
  | semantics
  deriving DecidableEq, Repr

namespace Rule

/-- The name of a rule. -/
def name : Rule → String
  | pathFormat => "path_format"
  | aliasExists => "alias_exists"
  | noSubQueryOperator => "no_sub_query_operator"
  | conversion => "ast_conversion"
  | grammar => "dsl_syntax"
  | semantics => "dsl_semantic"

/-- The rules in the order in which they are checked. -/
def chain : List Rule :=
  [pathFormat, aliasExists, noSubQueryOperator, conversion, grammar, semantics]

end Rule

/-- What is known of a constraint under review: the query that it edits, if that can be
read, the condition that it describes, and the condition as it is read again. -/
structure Draft where
  query? : Option Query
  condition? : Option Condition := none
  reparsed? : Option Condition := none

/-- The aliases of the query under edit, with commas between them; `none` says how to write
that there are none. -/
def Draft.aliasList (d : Draft) (none : String) : String :=
  let text := ", ".intercalate ((d.query?.map fun q => (Aliases.ofQuery q).names).getD [])
  if text = "" then none else text

namespace Rule

/-- The advice for a constraint that would declare new nodes. -/
def existingNodesAdvice (available : String) : String :=
  "To add constraints to existing nodes, use:\n- Path: <alias>.property (e.g., node_1.name)\n"
    ++ "- Operator: ==, !=, match, is\n- Available aliases: " ++ available

/-- The path names an alias. -/
def checkPath (c : Constraint) (d : Draft) : Except Verdict Draft :=
  if Text.trim c.path = "" then
    .error (.reject ⟨.missingAlias, "constraint_path is empty", none⟩)
  else if c.leadingAlias = "" then
    .error (.reject ⟨.missingAlias,
      "Invalid constraint_path format: must be 'alias' or 'alias.property'", none⟩)
  else
    .ok d

/-- The query can be read, and declares the alias. -/
def checkAlias (c : Constraint) (d : Draft) : Except Verdict Draft :=
  match d.query? with
  | none => .error (.reject ⟨.invalidNodeType, "Failed to parse original DSL", none⟩)
  | some q =>
    let aliases := Aliases.ofQuery q
    if aliases.contains c.leadingAlias then
      .ok d
    else
      .error (.reject ⟨.missingAlias,
        "Alias '" ++ c.leadingAlias ++ "' is not defined in original DSL",
        some (if aliases.names.isEmpty then "No aliases found"
          else "Available aliases: " ++ ", ".intercalate aliases.names)⟩)

/-- The operator does not relate to a nested query, which would declare new nodes. -/
def checkOperator (c : Constraint) (d : Draft) : Except Verdict Draft :=
  match c.operatorText? with
  | none => .ok d
  | some text =>
    if (RelOp.ofText? text).isNone then
      .ok d
    else
      .error ⟨.ofIssue ⟨.invalidValue,
        "Operator '" ++ text ++ "' creates sub-queries and is not allowed in constraints",
        some (existingNodesAdvice (d.aliasList "none"))⟩, true⟩

/-- The constraint describes a condition, unless it deletes one. -/
def checkConversion (c : Constraint) (d : Draft) : Except Verdict Draft :=
  if c.action = .delete then
    .ok d
  else
    match c.condition? with
    | some condition => .ok { d with condition? := some condition }
    | none => .error (.reject ⟨.invalidValue, "Failed to convert constraint to Condition AST",
        some "Check that operator and value are compatible"⟩)

/-- The text of the condition can be read. -/
def checkGrammar (d : Draft) : Except Verdict Draft :=
  match d.condition? with
  | none => .ok d
  | some condition =>
    match parseCondition condition.render with
    | .ok reparsed => .ok { d with reparsed? := some reparsed }
    | .error errors => .error (.reject ⟨.invalidValue,
        "Syntax error in generated DSL: " ++ ParseError.renderAll errors, none⟩)

/-- The condition that is read has no issue. -/
def checkSemantics (settings : Settings) (d : Draft) : Except Verdict Draft :=
  match d.reparsed?, d.query? with
  | some condition, some q =>
    let report := validateCondition settings (Aliases.ofQuery q) condition
    if report.isValid then .ok d else .error ⟨report, false⟩
  | _, _ => .ok d

/-- What a rule says of a constraint: the verdict if it is broken, or else all that is known
now. -/
def check (settings : Settings) (c : Constraint) (d : Draft) : Rule → Except Verdict Draft
  | pathFormat => checkPath c d
  | aliasExists => checkAlias c d
  | noSubQueryOperator => checkOperator c d
  | conversion => checkConversion c d
  | grammar => checkGrammar d
  | semantics => checkSemantics settings d

end Rule

/-- What is known of a constraint once it has kept all rules, or the verdict of the first
rule that it breaks. -/
def Draft.complete (settings : Settings) (c : Constraint) (d : Draft) : Except Verdict Draft :=
  Rule.chain.foldlM (fun d rule => rule.check settings c d) d

/-- The verdict on a constraint for a query, which is missing if it cannot be read. -/
def reviewFor (settings : Settings) (query? : Option Query) (c : Constraint) : Verdict :=
  match (Draft.mk query? none none).complete settings c with
  | .ok _ => .accept
  | .error verdict => verdict

/-- The verdict on a constraint for the text of a query. -/
def review (settings : Settings) (source : String) (c : Constraint) : Verdict :=
  reviewFor settings (parse source).toOption c

/-! ### Lists of constraints -/

/-- A constraint that is rejected: its place in the list, counted from zero, and why. -/
structure Rejection where
  index : Nat
  message : String
  fix? : Option String
  discard : Bool
  deriving DecidableEq, Repr

/-- The constraints of a list that are rejected, in order. -/
structure Review where
  rejections : List Rejection
  deriving DecidableEq, Repr

/-- The rejection of the constraint at a place of a list, given the verdict on it. -/
def Rejection.ofVerdict? (index : Nat) (c : Constraint) (v : Verdict) : Option Rejection :=
  if v.report.isValid then
    none
  else
    let fix := fixMessage v.report.issues
    some ⟨index,
      "Constraint " ++ toString (index + 1) ++ " (" ++ c.path ++ "): "
        ++ "; ".intercalate (v.report.issues.map Issue.message),
      if fix = "" then none else some fix, v.discard⟩

/-- The review of a list of constraints for the text of a query. -/
def reviewAll (settings : Settings) (source : String) (cs : List Constraint) : Review :=
  let query? := (parse source).toOption
  ⟨cs.zipIdx.filterMap fun (c, index) =>
    Rejection.ofVerdict? index c (reviewFor settings query? c)⟩

namespace Review

/-- Whether no constraint is rejected. -/
def isClean (r : Review) : Bool :=
  r.rejections.isEmpty

/-- The constraints of the list under review that are not rejected. -/
def accepted (r : Review) (cs : List Constraint) : List Constraint :=
  (cs.zipIdx.filter fun (_, index) => !r.rejections.any (·.index = index)).map Prod.fst

end Review

end NodeQuery
