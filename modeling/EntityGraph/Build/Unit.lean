import EntityGraph.Build.Entity
import EntityGraph.Document

/-!
# Compilation units and the fragment registry

An operation or a named fragment is compiled to its entities, the named fragments that it uses, and
a field that leads to its root entity. A registry knows the definitions of named fragments and
compiles each of them at most once; every use of a fragment then refers to the one compiled instance
(`FragmentId`).
-/

namespace EntityGraph

/-- What tells one compiled fragment from every other, even from one of the same name and content:
the registry that compiled it, and how many fragments that registry had compiled before. -/
structure FragmentId where
  registry : Nat
  serial : Nat
deriving DecidableEq

/-- A compiled definition. -/
structure Compiled (δ : Type) where
  definition : δ
  /-- The entities, the root entity first. -/
  entities : Storage
  /-- The named fragments that are spread, directly or not, in the order of first use. -/
  referenced : Dict Name FragmentId
  /-- A field whose child is the root entity. -/
  rootField : EntityField
  rootLocation : Location

/-- A compiled operation. -/
abbrev Operation := Compiled OperationDefinition

/-- A compiled fragment. -/
structure Fragment extends Compiled FragmentDefinition where
  id : FragmentId

namespace Fragment

/-- The name of the fragment. -/
def name (f : Fragment) : Name := f.definition.name

/-- Two compiled fragments are equal only if they are the same instance. -/
instance : BEq Fragment := ⟨fun f g => f.definition == g.definition && f.id == g.id⟩

end Fragment

/-- Named fragments: their definitions, those that are compiled, and those that are just being
compiled. -/
structure Registry where
  id : Nat
  built : Dict Name Fragment
  /-- The definitions in the order of registration. -/
  definitions : Dict Name FragmentDefinition
  /-- The fragments under construction, the outermost first. -/
  inProgress : OrderedSet Name

namespace Registry

/-- A registry without definitions. -/
def empty (id : Nat) : Registry := ⟨id, ∅, ∅, ∅⟩

/-- Registers a definition, whose name has to be new. -/
def register (d : FragmentDefinition) : EStateM BuildError Registry Unit := fun registry =>
  match registry.definitions.find? d.name with
  | some other => .error (.duplicateFragment d.name other.location d.location) registry
  | none => .ok () { registry with definitions := registry.definitions.insert d.name d }

/-- Registers the fragments of a document, up to the first name that is not new. -/
def registerDocument (document : Document) : EStateM BuildError Registry Unit :=
  document.fragments.forM register

/-- The names of the compiled fragments, in the order of registration. -/
def builtNames (registry : Registry) : List Name :=
  registry.definitions.keys.filter registry.built.contains

/-- The compiled fragment that an id refers to. -/
def instance? (registry : Registry) (id : FragmentId) : Option Fragment :=
  registry.built.values.find? (·.id = id)

end Registry

/-- The state of a compilation run on `schema`. -/
structure Run (schema : Schema) where
  lookups : Lookups schema
  registry : Registry

/-- A compilation run. What was compiled and reported before a failure stays. -/
abbrev RunM (schema : Schema) := EStateM BuildError (Run schema)

/-- A compilation unit under construction. -/
structure Workpiece where
  entities : Storage
  referenced : Dict Name FragmentId

/-- A compilation unit before anything is selected. -/
def Workpiece.empty : Workpiece := ⟨∅, ∅⟩

/-- Work on one compilation unit. -/
abbrev UnitM (schema : Schema) := StateT Workpiece (RunM schema)

namespace RunM

variable {schema : Schema}

/-- Work that needs the schema only. -/
def ofLookup {α : Type} (work : LookupM schema BuildError α) : RunM schema α := fun run =>
  match work run.lookups with
  | .ok a lookups => .ok a { run with lookups }
  | .error e lookups => .error e { run with lookups }

/-- A question to the schema. -/
def ask {α : Type} (question : LookupM schema LookupError α) : RunM schema α :=
  ofLookup question.asked

/-- Reports an event. -/
def report (event : Event) : RunM schema Unit := ofLookup (LookupM.report event)

end RunM

namespace UnitM

variable {schema : Schema}

/-- Work of the run that leaves the unit alone. -/
def ofRun {α : Type} (work : RunM schema α) : UnitM schema α := StateT.lift work

/-- A question to the schema. -/
def ask {α : Type} (question : LookupM schema LookupError α) : UnitM schema α :=
  ofRun (RunM.ask question)

end UnitM

end EntityGraph
