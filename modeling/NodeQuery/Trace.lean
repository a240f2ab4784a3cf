/-
Tracing a query from its text to its text.

The tokens of a query are shown, then its tree, what the check says of it, and the text that
it is written as; if constraints are given, also those, the review of them, and the text of
the query after the merge. What has been shown stays when a later step fails.

* `Trace.Outcome`: what is printed, and the exit code.
* `trace`: the outcome for command line arguments, given how files are read.
-/
import NodeQuery.Constraint.Extract
import NodeQuery.Constraint.Merge
import NodeQuery.Constraint.Review
import NodeQuery.Query.Tree
import NodeQuery.Settings.Reader
import NodeQuery.Text.Visible

namespace NodeQuery

namespace Trace

/-- What is printed on the two streams, and the exit code. -/
structure Outcome where
  output : String := ""
  errors : String := ""
  exitCode : Nat := 0
  deriving DecidableEq, Repr

/-- Lines as a text. -/
def unlines (lines : List String) : String :=
  String.join (lines.map (· ++ "\n"))

/-- A title above a line. -/
def title (text : String) : List String :=
  [text, "─────────────────────────────────────────────────────────────"]

/-- How to run a trace. -/
def usage : String :=
  unlines ["Usage: cargo run --bin trace_parser <dsl-file> [constraints-file]", "", "Example:",
    "  cargo run --bin trace_parser queries/instanceof.kirin"]

/-! ### Sections -/

/-- The head of a trace. -/
def banner : List String :=
  ["╔═══════════════════════════════════════════════════════════════", "║ KIRIN DSL TRACER",
    "╚═══════════════════════════════════════════════════════════════", ""]

/-- The text of a query, without the blanks at its end. -/
def inputLines (source : String) : List String :=
  ["📝 INPUT DSL:", String.ofList (Text.dropWhileEnd Text.isBlank source.toList), ""]

/-- A kind of token, with the text that it carries in visible form. -/
def kindText (k : Token.Kind) : String :=
  match k.payload? with
  | some text => k.name ++ "(" ++ Text.visible text ++ ")"
  | none => k.name

/-- A number behind blanks, on four places. -/
def padLeft (n : Nat) : String :=
  String.ofList (List.replicate (4 - (toString n).length) ' ') ++ toString n

/-- A number in front of blanks, on four places. -/
def padRight (n : Nat) : String :=
  toString n ++ String.ofList (List.replicate (4 - (toString n).length) ' ')

/-- A token, with its line and column. -/
def tokenLine (t : Token) : String :=
  "  " ++ padLeft t.start.line ++ ":" ++ padRight t.start.column ++ " " ++ kindText t.kind

/-- The tokens of a text. -/
def tokenLines (source : String) : List String :=
  title "🔤 TOKENS:" ++ (tokenize source).map tokenLine ++ [""]

/-- The tree of a query. -/
def treeLines (q : Query) : List String :=
  title "🌳 AST:" ++ [q.toJson.pretty, ""]

/-- What is said of a report on a query. -/
def reportText (q : Query) (r : Report) : String :=
  if r.isValid then
    "✅ valid\n"
  else
    fixMessage r.issues ++ unlines (r.issues.filterMap fun i =>
      (suggestFix? i q).map fun fix => "🔧 " ++ i.kind.name ++ " → " ++ fix)

/-- What the check says of a query. -/
def validationText (settings : Settings) (q : Query) : String :=
  let report := validate settings q
  unlines (title "🔎 VALIDATION:") ++ reportText q report
    ++ unlines (report.warnings.map ("⚠️  " ++ ·) ++ [""])

/-- The text that a query is written as. -/
def canonicalLines (q : Query) : List String :=
  title "🔄 CANONICAL DSL:" ++ [q.render, ""]

/-- A rejected constraint. -/
def rejectionLines (r : Rejection) : List String :=
  ("❌ " ++ r.message) :: (r.fix?.map ("   Fix: " ++ ·)).toList

/-- The constraints in a text, the review of them, and the query after the merge. -/
def constraintLines (settings : Settings) (source text : String) : List String :=
  let found := extract settings .unknown text
  let report := reviewAll settings source found
  let accepted := report.accepted found
  title "📋 CONSTRAINTS:" ++ [Constraint.listing found, ""]
    ++ report.rejections.flatMap rejectionLines
    ++ title ("🧩 MERGED DSL (" ++ toString accepted.length ++ " of " ++ toString found.length
      ++ " constraints):")
    ++ [merge settings source accepted, ""]

/-! ### The whole trace -/

/-- A trace that ends with a failure, after what has been shown. -/
def fail (shown : String) (reason : String) : Outcome :=
  ⟨shown, "❌ " ++ reason ++ "\n", 1⟩

/-- A trace that ends as it should. -/
def succeed (shown : String) : Outcome :=
  ⟨shown ++ "✅ Trace complete!\n", "", 0⟩

/-- The reason for a failure to read a file. -/
def unreadable (path reason : String) : String :=
  "Failed to read " ++ path ++ ": " ++ reason

/-- The settings in a file, if one is named. -/
def loadSettings (read : String → Except String String) (path? : Option String) :
    Except Settings.Fault Settings :=
  match path? with
  | none => .ok {}
  | some path =>
    match read path with
    | .error reason => .error (.unreadable path reason)
    | .ok text => Settings.ofText text

/-- The trace of a query, after what has been shown. -/
def traceQuery (read : String → Except String String) (settings : Settings) (source : String)
    (constraintsPath? : Option String) (shown : String) (q : Query) : Outcome :=
  let shown := shown ++ unlines (treeLines q) ++ validationText settings q
    ++ unlines (canonicalLines q)
  match constraintsPath? with
  | none => succeed shown
  | some path =>
    match read path with
    | .error reason => fail shown (unreadable path reason)
    | .ok text => succeed (shown ++ unlines (constraintLines settings source text))

/-- The trace of a text. -/
def traceText (read : String → Except String String) (settings : Settings)
    (constraintsPath? : Option String) (source : String) : Outcome :=
  let shown := unlines (banner ++ inputLines source ++ tokenLines source)
  match parse source with
  | .error errors =>
    fail shown ("Parse failed:" ++ String.join (errors.map fun e => "\n  " ++ e.render))
  | .ok q => traceQuery read settings source constraintsPath? shown q

end Trace

/-- The outcome of a trace for command line arguments, given how files are read and where
the settings are, if they are in a file. -/
def trace (read : String → Except String String) (settingsPath? : Option String)
    (args : List String) : Trace.Outcome :=
  match args with
  | [] => ⟨"", Trace.usage, 1⟩
  | path :: more =>
    match Trace.loadSettings read settingsPath? with
    | .error fault => Trace.fail "" fault.failure
    | .ok settings =>
      match read path with
      | .error reason => Trace.fail "" (Trace.unreadable path reason)
      | .ok source => Trace.traceText read settings more.head? source

end NodeQuery
