import EntityGraph.DeclaredType
import EntityGraph.Dict
import EntityGraph.Kind

/-!
# Named types

The types that a schema defines: scalars, enums, input objects, objects, interfaces and unions, with
their fields, arguments, values and members in the order of definition. Types refer to each other
by name (`TypeRef`), so a type is a value of its own and can be looked at without its schema.
Equality of types looks at everything, places included, but not at the order of fields, arguments,
values and members.
-/

namespace EntityGraph

/-- A type named at some place. -/
structure TypeRef where
  name : Name
  /-- Where the name was written, not where the type is defined. -/
  location : SourceLocation
deriving BEq

/-- An argument of a field. -/
@[ext]
structure Parameter where
  location : SourceLocation
  /-- The literal of the default value. -/
  default : Option String
  description : Option String
  name : Name
  type : DeclaredType
deriving BEq

/-- A field of an object, an interface or an input object. -/
@[ext]
structure Field where
  location : SourceLocation
  /-- Why the field is deprecated, if it is. -/
  deprecation : Option String
  description : Option String
  name : Name
  parameters : Dict Name Parameter
  parent : TypeRef
  type : DeclaredType
deriving BEq

/-- A value of an enum. -/
@[ext]
structure EnumValue where
  location : SourceLocation
  /-- Why the value is deprecated, if it is. -/
  deprecation : Option String
  description : Option String
  enumName : Name
  name : Name
deriving BEq

/-- An enum and its values. -/
structure EnumType where
  location : SourceLocation
  description : Option String
  name : Name
  values : Dict Name EnumValue
deriving BEq

/-- A scalar. -/
structure ScalarType where
  location : SourceLocation
  description : Option String
  name : Name
deriving BEq

/-- An input object and its fields. -/
structure InputObjectType where
  location : SourceLocation
  description : Option String
  fields : Dict Name Field
  name : Name
deriving BEq

/-- An object type or an interface: fields, and the interfaces that it says it implements. -/
structure FieldedType where
  location : SourceLocation
  description : Option String
  fields : Dict Name Field
  interfaces : List TypeRef
  name : Name
deriving BEq

/-- A union and its members. -/
structure UnionType where
  location : SourceLocation
  description : Option String
  name : Name
  members : Dict Name TypeRef
deriving BEq

/-- A named type. -/
inductive NamedType where
  | enum (type : EnumType)
  | inputObject (type : InputObjectType)
  | interface (type : FieldedType)
  | object (type : FieldedType)
  | scalar (type : ScalarType)
  | union (type : UnionType)
deriving BEq

/-- The five scalars that every schema has. -/
def builtInScalarNames : List Name := ["Boolean", "Float", "ID", "Int", "String"]

/-- A scalar that every schema has. -/
def ScalarType.builtIn (name : Name) : ScalarType := ⟨.builtIn, none, name⟩

/-- Whether the scalar is part of the language. -/
def ScalarType.isBuiltIn (t : ScalarType) : Bool := t.location.isBuiltIn

/-- The field that every object and interface has without defining it. -/
def typenameField : Name := "__typename"

/-- The declared type of `__typename`. -/
def typenameType : DeclaredType := .named "String" false

/-- The field `__typename` of the type `parent`. -/
def Field.typename (parent : Name) : Field where
  location := .builtIn
  deprecation := none
  description := none
  name := typenameField
  parameters := ∅
  parent := ⟨parent, .builtIn⟩
  type := typenameType

namespace FieldedType

/-- The field of the given name. -/
def field? (t : FieldedType) (name : Name) : Option Field := t.fields.find? name

/-- The names of the interfaces that the type says it implements. -/
def interfaceNames (t : FieldedType) : List Name := t.interfaces.map (·.name)

/-- Whether the type says it implements an interface. -/
def implements (t : FieldedType) (interface : Name) : Bool := interface ∈ t.interfaceNames

end FieldedType

namespace UnionType

/-- The names of the members, in the order of definition. -/
def memberNames (t : UnionType) : List Name := t.members.keys

end UnionType

namespace NamedType

/-- The name of the type. -/
def name : NamedType → Name
  | enum t => t.name
  | inputObject t => t.name
  | interface t | object t => t.name
  | scalar t => t.name
  | union t => t.name

/-- Where the type is defined. -/
def location : NamedType → SourceLocation
  | enum t => t.location
  | inputObject t => t.location
  | interface t | object t => t.location
  | scalar t => t.location
  | union t => t.location

/-- The description of the type. -/
def description : NamedType → Option String
  | enum t => t.description
  | inputObject t => t.description
  | interface t | object t => t.description
  | scalar t => t.description
  | union t => t.description

/-- The kind of the type. -/
def kind : NamedType → TypeKind
  | enum _ => .enum
  | inputObject _ => .inputObject
  | interface _ => .interface
  | object _ => .object
  | scalar _ => .scalar
  | union _ => .union

/-- Whether a value of the type may have one of several object types. -/
def isAbstract : NamedType → Bool
  | interface _ | union _ => true
  | enum _ | inputObject _ | object _ | scalar _ => false

/-- Whether fields can be selected on the type. -/
def isComposite : NamedType → Bool
  | interface _ | object _ | union _ => true
  | enum _ | inputObject _ | scalar _ => false

/-- The object type, if it is one. -/
def object? : NamedType → Option FieldedType
  | object t => some t
  | _ => none

/-- The interface, if it is one. -/
def interface? : NamedType → Option FieldedType
  | interface t => some t
  | _ => none

/-- The object type or interface, if it is one. -/
def fielded? : NamedType → Option FieldedType
  | interface t | object t => some t
  | _ => none

/-- The fields of an object, an interface or an input object; other types have none. -/
def fields : NamedType → Dict Name Field
  | interface t | object t => t.fields
  | inputObject t => t.fields
  | enum _ | scalar _ | union _ => ∅

/-- The field that a selection of `name` on the type refers to. -/
def selectableField? (type : NamedType) (name : Name) : Option Field :=
  type.fielded?.bind (·.field? name)

end NamedType

end EntityGraph
