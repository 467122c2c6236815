import EntityGraph.DeclaredType
import EntityGraph.Location
import EntityGraph.Schema.Error

/-!
# What can be wrong with an operation or a fragment
-/

namespace EntityGraph

/-- Why a compilation unit cannot be built. -/
inductive BuildError where
  /-- An earlier request on the same builder failed. -/
  | poisoned
  | duplicateFragment (name : Name) (first second : SourceLocation)
  /-- One response key has two different types for the same object type. -/
  | mergeConflict (location : Location) (key : Name) (existing conflicting : DeclaredType)
  /-- Fragment names from the first fragment of a cycle to the spread that closes it. -/
  | fragmentCycle (path : List Name)
  | notComposite (type : Name) (kind : TypeKind)
  | undefinedRoot (operation : OperationKind)
  | unknownField (type field : Name) (location : SourceLocation)
  | unknownFragment (name : Name)
  | unknownOperation (name : Name)
  | unknownType (name : Name)

namespace BuildError

/-- The text of a build error. -/
def message : BuildError → String
  | poisoned => "This IrBuilder failed an earlier build and can no longer be used"
  | duplicateFragment name _ _ => s!"Multiple fragments named `{name}` were defined"
  | mergeConflict location key existing conflicting =>
    s!"Cannot merge `{key}` at {location.render}: it is selected as `{existing.render}` and as " ++
      s!"`{conflicting.render}` under overlapping type conditions"
  | fragmentCycle path => "Fragment cycle detected: " ++ " -> ".intercalate path
  | notComposite type kind =>
    s!"`{type}` is a {kind.label} type, but it was used where an object, interface or union type " ++
      "is required"
  | undefinedRoot operation =>
    s!"The schema defines no {operation.keyword} root operation type"
  | unknownField type field _ => s!"The `{type}` type has no field named `{field}`"
  | unknownFragment name => s!"No fragment named `{name}` is defined"
  | unknownOperation name => s!"No operation named `{name}` is defined"
  | unknownType name => s!"No type named `{name}` is defined in the schema"

/-- A question that the schema could not answer, as a failure of the build that asked it. -/
def ofLookup : LookupError → BuildError
  | .notComposite type kind => notComposite type kind
  | .unknownType type => unknownType type

end BuildError

end EntityGraph
