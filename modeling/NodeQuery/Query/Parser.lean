/-
Reading queries.

The grammar, in which a bare attribute means `== true`, and a nested query without `where`
says no more than what its entity is:

    query     := entity "where" condition ";"
    entity    := identifier identifier?
    condition := "not" "(" condition ")"
               | ("and" | "or") "(" condition ("," condition)+ ")"
               | attribute ( valueOp value | relOp nested )?
    nested    := entity ("where" condition)? ";"?

The `;` of a nested query is taken only if some token follows it, so that one `;` before
the end of the input ends the outermost query. Conditions are nested in one another at most
`maxNesting` deep.

* `ParseError`: what is wrong, where, and the text of the token to blame;
  `ParseError.renderAll`: the report of several errors.
* `Cursor`: the tokens ahead.
* `Parser.Cause`: why reading fails.
* `parse`, `parseCondition`, `parseNested`: a text read as a query, as a condition, as a
  nested query; `parseTokens`, `parseConditionTokens`, `parseNestedTokens` read tokens.
-/
import NodeQuery.Query
import NodeQuery.Token.Lexer

namespace NodeQuery

/-! ### Errors -/

/-- The kinds of reading errors: a malformed token, tokens in an order that the grammar
does not accept, and a text that ends or goes on where it should not. -/
inductive ParseError.Kind where
  | lexical
  | grammar
  | unexpected
  deriving DecidableEq, Repr

/-- The word for a kind of reading error. -/
def ParseError.Kind.name : ParseError.Kind → String
  | lexical => "lexical"
  | grammar => "syntax"
  | unexpected => "unexpected"

/-- An error of reading, at the place of a token and with that token's text, which is empty
at the end of the input. -/
structure ParseError where
  kind : ParseError.Kind
  message : String
  position : Position
  token : String
  deriving DecidableEq, Repr

namespace ParseError

/-- The report of an error. -/
def render (e : ParseError) : String :=
  "[" ++ e.kind.name ++ "] line " ++ toString e.position.line ++ ", column "
    ++ toString e.position.column ++ " (offset " ++ toString e.position.offset ++ "): "
    ++ e.message ++ if e.token = "" then "" else " (token: " ++ e.token ++ ")"

/-- The report of several errors. -/
def renderAll (errors : List ParseError) : String :=
  "; ".intercalate (errors.map render)

/-- The report of errors as the cause for which an operation failed. -/
def failure (errors : List ParseError) : String :=
  "Parse error: " ++ renderAll errors

end ParseError

namespace Parser

/-- How deep conditions may be nested in one another. -/
def maxNesting : Nat := 256

/-! ### Failures -/

/-- What was expected instead of the token ahead. -/
inductive Expectation where
  | nodeType
  | subject
  | property
  | value
  | condition
  | whereWord
  | queryEnd
  | negationOpening
  | negationClosing
  | groupOpening (k : Connective)
  | groupClosing (k : Connective)
  deriving DecidableEq, Repr

/-- The words for an expectation. -/
def Expectation.message : Expectation → String
  | nodeType => "Expected node type"
  | subject => "Expected attribute"
  | property => "Expected property name after '.'"
  | value => "Expected value"
  | condition => "Expected condition"
  | whereWord => "Expected 'where' after entity declaration"
  | queryEnd => "Expected ';' at end of query"
  | negationOpening => "Expected '(' after 'not'"
  | negationClosing => "Expected ')' to close 'not'"
  | groupOpening k => "Expected '(' after '" ++ k.spelling ++ "'"
  | groupClosing k => "Expected ',' or ')' in '" ++ k.spelling ++ "'"

/-- Why reading fails at a token. -/
inductive Cause where
  | missing (what : Expectation)
  | lonelyMember (k : Connective)
  | tooDeep
  | trailing
  deriving DecidableEq, Repr

/-- A failure: its cause, and the tokens from the one to blame onwards. -/
structure Failure where
  cause : Cause
  rest : List Token
  deriving DecidableEq, Repr

namespace Failure

/-- The token to blame, which is `final`, the end of the input, if no token is left. -/
def culprit (f : Failure) (final : Token) : Token :=
  f.rest.head?.getD final

/-- The kind of the failure. -/
def kind (f : Failure) : ParseError.Kind :=
  match f.cause with
  | .missing _ => if f.rest.isEmpty then .unexpected else .grammar
  | .lonelyMember _ => .grammar
  | .tooDeep => .grammar
  | .trailing => .unexpected

/-- The words for the failure. -/
def message (f : Failure) (final : Token) : String :=
  match f.cause with
  | .missing what => what.message ++ ", found " ++ (f.culprit final).kind.describe
  | .lonelyMember k => "'" ++ k.spelling ++ "' requires at least 2 conditions, found 1"
  | .tooDeep => "Conditions nested deeper than " ++ toString maxNesting ++ " levels"
  | .trailing => "Unexpected input after end of query"

/-- The failure as an error of reading tokens that end with `final`. -/
def toError (f : Failure) (final : Token) : ParseError :=
  ⟨f.kind, f.message final, (f.culprit final).start, match f.rest.head? with
    | some t => t.text
    | none => ""⟩

end Failure

/-! ### The tokens ahead -/

/-- The tokens ahead, up to the end of the input, and the offset behind the last token taken. -/
structure Cursor where
  rest : List Token
  stop : Nat := 0
  deriving DecidableEq, Repr

namespace Cursor

/-- The kind of the token ahead, if any is left. -/
def peek? (c : Cursor) : Option Token.Kind :=
  c.rest.head?.map Token.kind

/-- The cursor behind the token ahead. -/
def advance (c : Cursor) : Cursor :=
  match c.rest with
  | [] => c
  | t :: rest => ⟨rest, t.stop⟩

/-- The bytes of the token ahead. -/
def span (c : Cursor) : Span :=
  match c.rest with
  | [] => ⟨c.stop, c.stop⟩
  | t :: _ => t.span

/-- The bytes from the token ahead of `c` to the last token taken at `d`. -/
def spanTo (c d : Cursor) : Span :=
  ⟨c.span.start, d.stop⟩

/-- A failure to blame on the token ahead. -/
def fail (c : Cursor) (cause : Cause) : Failure :=
  ⟨cause, c.rest⟩

end Cursor

/-! ### The grammar -/

/-- Takes a token of a given kind. -/
def take (kind : Token.Kind) (what : Expectation) (c : Cursor) : Except Failure Cursor :=
  if c.peek? = some kind then .ok c.advance else .error (c.fail (.missing what))

/-- Takes an identifier. -/
def identifier (what : Expectation) (c : Cursor) : Except Failure (String × Cursor) :=
  match c.peek? with
  | some (.identifier name) => .ok (name, c.advance)
  | _ => .error (c.fail (.missing what))

/-- Reads the declaration of an entity. -/
def entity (c : Cursor) : Except Failure (Entity × Cursor) := do
  let (nodeType, d) ← identifier .nodeType c
  match d.peek? with
  | some (.identifier name) => .ok (⟨nodeType, some name⟩, d.advance)
  | _ => .ok (⟨nodeType, none⟩, d)

/-- Reads properties, each behind a dot, as long as there are dots; `fuel` bounds their
number. -/
def properties : Nat → Cursor → Except Failure (List String × Cursor)
  | 0, c => .ok ([], c)
  | fuel + 1, c =>
    if c.peek? = some .dot then do
      let (first, d) ← identifier .property c.advance
      let (more, e) ← properties fuel d
      .ok (first :: more, e)
    else
      .ok ([], c)

/-- Reads an attribute. -/
def subject (c : Cursor) : Except Failure (Attribute × Cursor) := do
  let (name, d) ← identifier .subject c
  let (behind, e) ← properties d.rest.length d
  .ok (⟨name, behind⟩, e)

/-- Reads a literal or an identifier as a value. -/
def value (c : Cursor) : Except Failure (String × Cursor) :=
  match c.peek?.bind Token.Kind.value? with
  | some raw => .ok (raw, c.advance)
  | none => .error (c.fail (.missing .value))

/-- Takes the `;` of a nested query, if it is there and is not the last token. -/
def nestedEnd (c : Cursor) : Cursor :=
  if c.peek? = some .semicolon && !c.advance.rest.isEmpty then c.advance else c

section Layer

variable (condition : Cursor → Except Failure (Condition × Cursor))

/-- Reads a nested query, given how to read the conditions in it. -/
def nestedQuery (start : Cursor) : Except Failure (Query × Cursor) := do
  let (declared, c) ← entity start
  let place := start.spanTo c
  if c.peek? = some .whereWord then do
    let (inner, d) ← condition c.advance
    .ok (⟨declared, inner, ⟨some place, some c.span, some (c.advance.spanTo d)⟩⟩, nestedEnd d)
  else
    .ok (⟨declared, Condition.placeholder declared, ⟨some place, none, none⟩⟩, nestedEnd c)

/-- Reads a leaf of a condition, given how to read the conditions inside it. -/
def leaf (c : Cursor) : Except Failure (Condition × Cursor) := do
  let (a, d) ← subject c
  match d.peek? with
  | some (.valueOp op) => do
    let (raw, e) ← value d.advance
    .ok (.value ⟨a, op, raw⟩, e)
  | some (.relOp op) => do
    let (query, e) ← nestedQuery condition d.advance
    .ok (Condition.relate a op query, e)
  | _ => .ok (.value ⟨a, .equal, "true"⟩, d)

/-- Reads conditions, each behind a comma, as long as there are commas; `fuel` bounds their
number. -/
def furtherMembers : Nat → Cursor → Except Failure (List Condition × Cursor)
  | 0, c => .ok ([], c)
  | fuel + 1, c =>
    if c.peek? = some .comma then do
      let (member, d) ← condition c.advance
      let (more, e) ← furtherMembers fuel d
      .ok (member :: more, e)
    else
      .ok ([], c)

/-- Reads a condition, given how to read the conditions inside it. -/
def conditionLayer (start : Cursor) : Except Failure (Condition × Cursor) :=
  match start.peek? with
  | some .notWord => do
    let c ← take .opening .negationOpening start.advance
    let (inner, c) ← condition c
    let c ← take .closing .negationClosing c
    .ok (.negation inner, c)
  | some (.connective k) => do
    let c ← take .opening (.groupOpening k) start.advance
    let (member, c) ← condition c
    let (more, c) ← furtherMembers condition c.rest.length c
    let c ← take .closing (.groupClosing k) c
    if more.isEmpty then
      .error (start.fail (.lonelyMember k))
    else
      .ok (.group k (member :: more), c)
  | some (.identifier _) => leaf condition start
  | _ => .error (start.fail (.missing .condition))

end Layer

/-- Reads a condition in which conditions are nested at most `depth` deep. -/
def condition : Nat → Cursor → Except Failure (Condition × Cursor)
  | 0, c => .error (c.fail .tooDeep)
  | depth + 1, c => conditionLayer (condition depth) c

/-- Reads an outermost query. -/
def rootQuery (start : Cursor) : Except Failure (Query × Cursor) := do
  let (declared, c) ← entity start
  let d ← take .whereWord .whereWord c
  let (inner, e) ← condition maxNesting d
  let last ← take .semicolon .queryEnd e
  .ok (⟨declared, inner, ⟨some (start.spanTo c), some c.span, some (d.spanTo e)⟩⟩, last)

/-- Takes a `;` if there is one. -/
def skipSemicolon (c : Cursor) : Cursor :=
  if c.peek? = some .semicolon then c.advance else c

/-- Accepts only the end of the input. -/
def inputEnd (c : Cursor) : Except Failure Unit :=
  if c.rest.isEmpty then .ok () else .error (c.fail .trailing)

/-- Reads an outermost query and nothing behind it. -/
def wholeQuery (c : Cursor) : Except Failure Query := do
  let (query, c) ← rootQuery c
  inputEnd c
  .ok query

/-- Reads a condition, perhaps a `;`, and nothing behind it. -/
def wholeCondition (c : Cursor) : Except Failure Condition := do
  let (result, c) ← condition maxNesting c
  inputEnd (skipSemicolon c)
  .ok result

/-- Reads a nested query, perhaps a `;`, and nothing behind it. -/
def wholeNested (c : Cursor) : Except Failure Query := do
  let (query, c) ← nestedQuery (condition maxNesting) c
  inputEnd (skipSemicolon c)
  .ok query

/-! ### From tokens to results -/

/-- The error tokens, as errors of reading. -/
def lexicalErrors (tokens : List Token) : List ParseError :=
  tokens.filterMap fun t => match t.kind with
    | .error message => some ⟨.lexical, "Lexer error: " ++ message, t.start, t.text⟩
    | _ => none

/-- The tokens in front of the end of the input. -/
def body (tokens : List Token) : List Token :=
  tokens.takeWhile fun t => t.kind ≠ .endOfInput

/-- The token that ends the input, put behind the last token if there is none. -/
def final (tokens : List Token) : Token :=
  (tokens.find? fun t => t.kind = .endOfInput).getD <|
    match tokens.getLast? with
    | some t => ⟨.endOfInput, ⟨t.stop, t.start.line, t.start.column⟩, t.stop, ""⟩
    | none => ⟨.endOfInput, {}, 0, ""⟩

/-- Reads tokens: all errors of single tokens are reported, and the first failure if there
are none. -/
def run {α : Type} (whole : Cursor → Except Failure α) (tokens : List Token) :
    Except (List ParseError) α :=
  match lexicalErrors tokens with
  | [] => (whole ⟨body tokens, 0⟩).mapError fun f => [f.toError (final tokens)]
  | errors => .error errors

end Parser

/-- Tokens read as a query. -/
def parseTokens : List Token → Except (List ParseError) Query :=
  Parser.run Parser.wholeQuery

/-- Tokens read as a condition. -/
def parseConditionTokens : List Token → Except (List ParseError) Condition :=
  Parser.run Parser.wholeCondition

/-- Tokens read as a nested query. -/
def parseNestedTokens : List Token → Except (List ParseError) Query :=
  Parser.run Parser.wholeNested

/-- A text read as a query. -/
def parse (source : String) : Except (List ParseError) Query :=
  parseTokens (tokenize source)

/-- A text read as a condition. -/
def parseCondition (source : String) : Except (List ParseError) Condition :=
  parseConditionTokens (tokenize source)

/-- A text read as a nested query. -/
def parseNested (source : String) : Except (List ParseError) Query :=
  parseNestedTokens (tokenize source)

end NodeQuery
