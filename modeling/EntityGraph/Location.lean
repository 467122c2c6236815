import EntityGraph.Source

/-!
# Response locations

A location is a position in the response of one compilation unit: the unit, and the fields that lead
from its root to the position. It is what tells entities apart: selections that reach the same
location contribute to the same entity, and locations of different units are never the same.
-/

namespace EntityGraph

/-- The compilation unit that a location belongs to. -/
inductive LocationSource where
  | fragment (name : Name) (condition : Name)
  | operation (name : Option Name) (rootType : Name)
deriving DecidableEq

/-- One field on the way to a location, with the named type inside its lists. -/
structure LocationStep where
  key : Name
  typeName : Name
deriving DecidableEq

/-- A response position of one compilation unit. -/
structure Location where
  path : List LocationStep
  source : LocationSource
deriving DecidableEq

/-- How messages refer to an operation without a name. -/
def anonymous : String := "<anonymous>"

/-- The text of a unit. -/
def LocationSource.render : LocationSource → String
  | fragment name _ => s!"Fragment({name})"
  | operation name _ => s!"Operation({name.getD anonymous})"

/-- The type at the root of a unit. -/
def LocationSource.rootType : LocationSource → Name
  | fragment _ condition => condition
  | operation _ rootType => rootType

namespace Location

/-- The root of an operation. -/
def ofOperation (name : Option Name) (rootType : Name) : Location := ⟨[], .operation name rootType⟩

/-- The root of a named fragment. -/
def ofFragment (name condition : Name) : Location := ⟨[], .fragment name condition⟩

/-- The location one field further. -/
def append (l : Location) (key typeName : Name) : Location :=
  { l with path := l.path ++ [⟨key, typeName⟩] }

/-- Whether the location is the root of its unit. -/
def isRoot (l : Location) : Bool := l.path.isEmpty

/-- The named type of the value at the location. -/
def typeName (l : Location) : Name :=
  match l.path.getLast? with
  | some step => step.typeName
  | none => l.source.rootType

/-- The unit, and then each response key after a dot. -/
def render (l : Location) : String :=
  l.source.render ++ String.join (l.path.map fun step => "." ++ step.key)

end Location

end EntityGraph
