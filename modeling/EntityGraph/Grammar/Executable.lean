import EntityGraph.Grammar.Value
import EntityGraph.Selection

/-!
# Executable texts

The grammar of operations and fragments. As in `graphql-parser`, a definition keeps the place of
its keyword, or of its brace if it has none; a field keeps the place of its first name, and a spread
or an inline fragment the place of the token after the three dots. All places are in the file that
the text came from.
-/

namespace EntityGraph.Grammar

namespace Parser

variable (file : Option SourcePath)

/-- A place in the file. -/
def place : Parser SourceLocation := do
  return .inExecutable file (← position)

/-- A field from its first name on, where `nested` reads a selection set. -/
def fieldSelection (nested : Parser (List Selection)) : Parser Selection := do
  let location ← place file
  let first ← name
  let (aliasName, fieldName) ←
    if ← skipPunct .colon then
      pure (some first, ← name)
    else
      pure (none, first)
  let _ ← arguments
  let _ ← directives
  let selections ← if ← atPunct .openBrace then nested else pure []
  return .field aliasName fieldName location selections

/-- A spread or an inline fragment after its three dots, where `nested` reads a selection set. -/
def fragmentSelection (nested : Parser (List Selection)) : Parser Selection := do
  let location ← place file
  match ← peek with
  | some (.name "on") =>
    let _ ← next
    let condition ← name
    let _ ← directives
    return .inline (some condition) location (← nested)
  | some (.name fragment) =>
    let _ ← next
    let _ ← directives
    return .spread fragment location
  | _ =>
    let _ ← directives
    return .inline none location (← nested)

/-- A selection set nested at most `bound` levels deep. -/
def selectionSetWithin : (bound : Nat) → Parser (List Selection)
  | 0 => failure
  | bound + 1 => do
    punct .openBrace
    items1 .closeBrace do
      if ← skipPunct .ellipsis then
        fragmentSelection file (selectionSetWithin bound)
      else
        fieldSelection file (selectionSetWithin bound)

/-- A selection set. -/
def selectionSet : Parser (List Selection) := do
  selectionSetWithin file (← get).length

/-- A variable definition, which leaves no trace. -/
def variableDefinition : Parser Unit := do
  punct .dollar
  let _ ← name
  punct .colon
  let _ ← typeExpr
  let _ ← defaultValue

/-- A name, if one stands here. -/
def name? : Parser (Option Name) := do
  match ← peek with
  | some (.name n) =>
    let _ ← next
    return some n
  | _ => return none

/-- An operation after its keyword. -/
def operationDefinition (location : SourceLocation) (kind : OperationKind) :
    Parser ExecutableDefinition := do
  let n ← name?
  let _ ← group .openParen .closeParen variableDefinition
  let _ ← directives
  let selections ← selectionSet file
  return .operation ⟨location, kind, n, selections⟩

/-- A named fragment after its keyword. -/
def fragmentDefinition (location : SourceLocation) : Parser ExecutableDefinition := do
  let n ← name
  keyword "on"
  let condition ← name
  let _ ← directives
  let selections ← selectionSet file
  return .fragment ⟨location, n, selections, condition⟩

/-- A definition of an executable text. A selection set alone is a query without a name. -/
def executableDefinition : Parser ExecutableDefinition := do
  let location ← place file
  if ← atPunct .openBrace then
    return .operation ⟨location, .query, none, ← selectionSet file⟩
  else
    match ← name with
    | "query" => operationDefinition file location .query
    | "mutation" => operationDefinition file location .mutation
    | "subscription" => operationDefinition file location .subscription
    | "fragment" => fragmentDefinition file location
    | _ => failure

end Parser

/-- The definitions of an executable text that came from `file`. -/
def executable? (file : Option SourcePath) (text : String) : Option (List ExecutableDefinition) :=
  (Parser.executableDefinition file).toEnd.parse? text

end EntityGraph.Grammar
