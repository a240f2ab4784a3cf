/-
Settings, and the documents from which they are read.

The settings are the choices that are left to those who run the checks and the merge. A text of
settings is a document that gives values to some of them; a setting that it does not name keeps its
default. The number of node types must not be zero.

A document is a text of lines that are blank, open a table by a header, or assign a value
to keys in the table of the header in force, or in the whole document as long as there is no
header. Keys with dots between them make tables, too. A table is opened by one header at most, and
not at all if keys with dots make it; nothing is assigned twice. The header of a table may follow
those of the tables in it.

* `Settings`: the choices, each with its default.
* `Settings.Line`: a line of a document.
* `Settings.Document`: the headers and the assignments of a document.
* `Settings.Document.isSound`: nothing is there twice.
* `Settings.Document.value?`: what a name of the whole document stands for.
* `Settings.ofText`: the settings that a text makes; `Settings.Fault`: why it makes none.
-/
import NodeQuery.Operator
import NodeQuery.Settings.Value

namespace NodeQuery

/-- The choices, each with its default. -/
structure Settings where
  /-- The number of node types that are named when a node type is not known. -/
  nodeTypeSample : Nat := 10
  /-- How conditions that are added join those that are there. -/
  combine : Connective := .conj
  /-- Whether an alias that is declared more than once is an error. -/
  reportDuplicateAliases : Bool := true
  /-- Whether repeated constraints are dropped when they are read from a text. -/
  dedupeConstraints : Bool := true
  deriving DecidableEq, Repr

namespace Settings

/-! ### Lines -/

/-- A line of a document. -/
inductive Line where
  | blank
  | header (path : List String)
  | assignment (path : List String) (value : Value)
  deriving DecidableEq, Repr

/-- The line in front of a text, and the text behind it. -/
def line? (cs : List Char) : Option (Line × List Char) :=
  match lineEnd? cs with
  | some rest => some (.blank, rest)
  | none =>
    match skipGap cs with
    | '[' :: rest => do
      let (path, rest) ← keyPath? rest.length rest
      match rest with
      | ']' :: rest => (lineEnd? rest).map fun rest => (.header path, rest)
      | _ => none
    | rest => do
      let (path, rest) ← keyPath? rest.length rest
      match rest with
      | '=' :: rest => do
        let (value, rest) ← value? (skipGap rest)
        (lineEnd? rest).map fun rest => (.assignment path value, rest)
      | _ => none

/-- The lines of a text, at most `fuel` of them. -/
def lines? : Nat → List Char → Option (List Line)
  | _, [] => some []
  | 0, _ => none
  | fuel + 1, cs => do
    let (line, rest) ← line? cs
    (lines? fuel rest).map (line :: ·)

/-! ### Tables and assignments -/

/-- An assignment: the table in which it stands, the keys from there on, and the value. -/
structure Entry where
  table : List String
  keys : List String
  value : Value
  deriving DecidableEq, Repr

/-- All the keys that lead to the value of an assignment. -/
def Entry.path (e : Entry) : List String :=
  e.table ++ e.keys

/-- The tables that an assignment makes: one for each of its keys but the last. -/
def Entry.tables (e : Entry) : List (List String) :=
  (List.range e.keys.length).tail.map fun n => e.table ++ e.keys.take n

/-- The headers and the assignments of a document, each in the order in which they stand. -/
structure Document where
  headers : List (List String)
  entries : List Entry
  deriving DecidableEq, Repr

/-- The document of lines that stand in a table. -/
def documentIn (table : List String) : List Line → Document
  | [] => ⟨[], []⟩
  | .blank :: rest => documentIn table rest
  | .header path :: rest =>
    let d := documentIn path rest
    { d with headers := path :: d.headers }
  | .assignment keys value :: rest =>
    let d := documentIn table rest
    { d with entries := ⟨table, keys, value⟩ :: d.entries }

namespace Document

/-- The paths that headers open and to which values are assigned. -/
def paths (d : Document) : List (List String) :=
  d.headers ++ d.entries.map Entry.path

/-- Whether no path is opened or assigned twice, and no header opens a table that an
assignment makes. -/
def isSound (d : Document) : Bool :=
  d.paths.eraseDups = d.paths &&
    d.entries.all fun e => e.tables.all fun table => !d.headers.contains table

/-- The names in the whole document, each once. -/
def names (d : Document) : List String :=
  (d.paths.filterMap List.head?).eraseDups

/-- What stands under a name: each table that is opened there, apart from the one of the name
itself, and each value that is assigned, with the path that leads to it. -/
def contents (d : Document) (name : String) : List (List String × Value) :=
  let opened := (d.headers.filter (· ≠ [name])).map fun path => (path, Value.empty)
  let assigned := d.entries.map fun e => (e.path, e.value)
  (opened ++ assigned).filter fun item => item.1.head? = some name

/-- What a name stands for, if that is a value that a setting can have. -/
def value? (d : Document) (name : String) : Option Value :=
  match d.contents name with
  | [] => some .empty
  | [([_], value)] => some value
  | [([_, key], .empty)] => some (.choice key)
  | _ => none

end Document

/-- A text without the byte order mark in front of it. -/
def skipMark : List Char → List Char
  | '\ufeff' :: cs => cs
  | cs => cs

/-- The document that a text is. -/
def document? (text : String) : Option Document :=
  let cs := skipMark text.toList
  (lines? cs.length cs).map (documentIn [])

/-! ### Settings -/

/-- Why a text makes no settings: it could not be had, it is no document that assigns
settings, or a setting has a value that it may not have. -/
inductive Fault where
  | unreadable (path reason : String)
  | malformed
  | outOfRange (field reason : String)
  deriving DecidableEq, Repr

/-- The words for a fault. -/
def Fault.message : Fault → String
  | unreadable path reason => "Failed to read config file " ++ path ++ ": " ++ reason
  | malformed => "Failed to parse config"
  | outOfRange field reason => "Invalid value for " ++ field ++ ": " ++ reason

/-- The report of a fault as the cause for which an operation failed. -/
def Fault.failure (f : Fault) : String :=
  "Config error: " ++ f.message

/-- The connective that a setting names. -/
def connectiveOf? (name : String) : Option Connective :=
  [Connective.conj, Connective.disj].find? fun k => k.spelling = name

/-- Settings after one of them, given by its name, has got a value, if it is one that the
setting can have. -/
def assign? (s : Settings) (name : String) (value : Value) : Option Settings :=
  match name, value with
  | "node_type_sample", .integer (.ofNat n) => some { s with nodeTypeSample := n }
  | "combine", .text key => (connectiveOf? key).map fun k => { s with combine := k }
  | "combine", .choice key => (connectiveOf? key).map fun k => { s with combine := k }
  | "report_duplicate_aliases", .flag b => some { s with reportDuplicateAliases := b }
  | "dedupe_constraints", .flag b => some { s with dedupeConstraints := b }
  | _, _ => none

/-- The settings that a document makes out of the defaults. -/
def ofDocument? (d : Document) : Option Settings :=
  if d.isSound then
    d.names.foldlM (fun s name => (d.value? name).bind (assign? s name)) {}
  else
    none

/-- The settings that a text makes, or why it makes none. -/
def ofText (text : String) : Except Fault Settings :=
  match (document? text).bind ofDocument? with
  | none => .error .malformed
  | some settings =>
    if settings.nodeTypeSample = 0 then
      .error (.outOfRange "node_type_sample" "must be greater than zero")
    else
      .ok settings

end Settings

end NodeQuery
