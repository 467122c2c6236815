import EntityGraph.Build.Resolve

/-!
# Building a document

A builder compiles the operations and fragments of one document on request. Its registry lasts as
long as the builder, so a fragment is compiled once however many operations spread it. After a failed
request the builder is poisoned: it refuses every later one.
-/

namespace EntityGraph

/-- A builder for one document, on one schema. -/
structure Builder (schema : Schema) where
  document : Document
  poisoned : Bool
  run : Run schema

/-- The compiled form of a whole document. -/
structure CompiledDocument where
  fragments : List Fragment
  operations : List Operation

namespace CompiledDocument

/-- The first operation of the given name. -/
def operation? (d : CompiledDocument) (name : Name) : Option Operation :=
  d.operations.find? (·.definition.name = some name)

/-- The first fragment of the given name. -/
def fragment? (d : CompiledDocument) (name : Name) : Option Fragment :=
  d.fragments.find? (·.name = name)

end CompiledDocument

/-- Requests to a builder. -/
abbrev BuilderM (schema : Schema) := EStateM BuildError (Builder schema)

namespace Builder

variable {schema : Schema}

/-- A builder for a document, whose fragments have to have different names. -/
def new (schema : Schema) (document : Document) : Except BuildError (Builder schema) :=
  match Registry.registerDocument document (.empty 0) with
  | .ok _ registry => .ok ⟨document, false, .fresh schema, registry⟩
  | .error e _ => .error e

/-- Compiles something, unless the builder is poisoned; a failure poisons it. -/
def guarded {α : Type} (work : RunM schema α) : BuilderM schema α := fun builder =>
  if builder.poisoned then .error .poisoned builder
  else
    match work builder.run with
    | .ok a run => .ok a { builder with run }
    | .error e run =>
      .error e
        { builder with
          poisoned := true
          run := { run with lookups.log := .poisonedBuilder e :: run.lookups.log } }

/-- Compiles an operation. -/
def buildOperation (d : OperationDefinition) : BuilderM schema Operation :=
  guarded (RunM.operation d)

/-- Compiles the operation of the given name. -/
def buildOperationNamed (name : Name) : BuilderM schema Operation := do
  match (← get).document.operation? name with
  | some d => buildOperation d
  | none => throw (.unknownOperation name)

/-- Compiles the fragment of the given name. -/
def buildFragment (name : Name) : BuilderM schema Fragment := guarded (RunM.resolve name)

/-- Compiles every operation and then every fragment of the document. -/
def buildDocument : BuilderM schema CompiledDocument := do
  let document := (← get).document
  let operations ← document.operations.mapM buildOperation
  let fragments ← document.fragments.mapM fun d => buildFragment d.name
  return { fragments, operations }

end Builder

end EntityGraph
