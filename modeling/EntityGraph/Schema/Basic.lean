import EntityGraph.OrderedSet
import EntityGraph.Schema.Error
import EntityGraph.Schema.Types

/-!
# Schemas

A schema holds its types in the order of definition, and names a root type for queries and perhaps
for mutations and subscriptions. `Schema.possibleTypes` says which object types a value of a
composite type can have.
-/

namespace EntityGraph

/-- Types, and the root types of operations. -/
structure Schema where
  mutation : Option TypeRef
  query : TypeRef
  subscription : Option TypeRef
  types : Dict Name NamedType
deriving BEq

namespace Schema

/-- The type of the given name. -/
def type (schema : Schema) (name : Name) : Except LookupError NamedType :=
  match schema.types.find? name with
  | some t => .ok t
  | none => .error (.unknownType name)

/-- The reference to the root type for a kind of operations. -/
def rootRef? (schema : Schema) : OperationKind → Option TypeRef
  | .mutation => schema.mutation
  | .query => some schema.query
  | .subscription => schema.subscription

/-- The root type for a kind of operations. -/
def root? (schema : Schema) (kind : OperationKind) : Option NamedType := do
  schema.types.find? (← schema.rootRef? kind).name

/-- The object types, in the order of definition. -/
def objects (schema : Schema) : List FieldedType := schema.types.values.filterMap (·.object?)

/-- The object types that a value of the named type can have: the objects that say they implement an
interface, the members of a union, an object type itself. -/
def possibleTypes (schema : Schema) (name : Name) : Except LookupError (OrderedSet Name) :=
  match schema.type name with
  | .error e => .error e
  | .ok (.interface t) =>
    .ok (.ofList ((schema.objects.filter (·.implements t.name)).map (·.name)))
  | .ok (.union t) => .ok (.ofList t.memberNames)
  | .ok (.object _) => .ok (.singleton name)
  | .ok t => .error (.notComposite name t.kind)

/-- Whether the named type is an interface. -/
def isInterface (schema : Schema) (name : Name) : Bool :=
  match schema.types.find? name with
  | some (.interface _) => true
  | _ => false

end Schema

/-- The interfaces of a type that the schema knows as interfaces. -/
def FieldedType.resolvedInterfaces (t : FieldedType) (schema : Schema) : List FieldedType :=
  t.interfaces.filterMap fun r => (schema.types.find? r.name).bind (·.interface?)

/-- The members of a union that the schema knows as objects. -/
def UnionType.resolvedMembers (t : UnionType) (schema : Schema) : List FieldedType :=
  t.members.values.filterMap fun r => (schema.types.find? r.name).bind (·.object?)

end EntityGraph
