import EntityGraph.Grammar.Executable
import EntityGraph.Log

/-!
# Executable documents

The operations and named fragments of one text, in the order of definition. The operations of a
document can be told apart: no two have the same name, and an operation without a name is the only
one. Fragment names are checked later, where fragments of several documents may come together.
-/

namespace EntityGraph

/-- Operations and named fragments that belong together. -/
structure Document where
  file : Option SourcePath
  fragments : List FragmentDefinition
  operations : List OperationDefinition
deriving BEq

/-- Why a text is no executable document. -/
inductive DocumentError where
  | anonymousNotAlone (location : SourceLocation)
  | duplicateOperation (name : Name) (first second : SourceLocation)
  | parse (file : Option SourcePath)

/-- The text of a document error. -/
def DocumentError.message : DocumentError → String
  | anonymousNotAlone _ =>
    "An anonymous operation must be the only operation in its executable document"
  | duplicateOperation name _ _ =>
    s!"Multiple operations named `{name}` in one executable document"
  | parse file =>
    s!"Error parsing executable document `{Text.quoteOption (file.map SourcePath.text)}`: "

namespace Document

/-- The first operation of the given name. -/
def operation? (document : Document) (name : Name) : Option OperationDefinition :=
  document.operations.find? (·.name = some name)

/-- Adds an operation, whose name has to be new. -/
def addOperation (operations : List OperationDefinition) (d : OperationDefinition) :
    Except DocumentError (List OperationDefinition) :=
  match d.name with
  | none => .ok (operations ++ [d])
  | some name =>
    match operations.find? (·.name = some name) with
    | some other => .error (.duplicateOperation name other.location d.location)
    | none => .ok (operations ++ [d])

/-- An operation without a name has to be the only one. -/
def checkAnonymous (operations : List OperationDefinition) : Except DocumentError Unit :=
  match operations.find? (·.name.isNone) with
  | some d => if 1 < operations.length then .error (.anonymousNotAlone d.location) else .ok ()
  | none => .ok ()

/-- The document that some definitions make up. -/
def ofDefinitions (file : Option SourcePath) (ds : List ExecutableDefinition) :
    Except DocumentError Document := do
  let operations ← (ds.filterMap (·.operation?)).foldlM addOperation []
  checkAnonymous operations
  return { file, fragments := ds.filterMap (·.fragment?), operations }

/-- The document that some definitions make up, with a report. -/
def load (file : Option SourcePath) (ds : List ExecutableDefinition) :
    EStateM DocumentError Log Document := fun log =>
  match ofDefinitions file ds with
  | .ok document =>
    .ok document
      (.loadedDocument document.operations.length document.fragments.length :: log)
  | .error e => .error e log

/-- The document that a text spells. -/
def loadText (file : Option SourcePath) (text : String) : EStateM DocumentError Log Document :=
  match Grammar.executable? file text with
  | some ds => load file ds
  | none => throw (.parse file)

end Document

end EntityGraph
