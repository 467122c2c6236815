import EntityGraph.Data.Source
import EntityGraph.Schema.Types

/-!
# Stored types
-/

namespace EntityGraph

namespace TypeRef

/-- The stored form of a reference. -/
def encode (r : TypeRef) : Data :=
  .record [("name", .str r.name), ("phantom", .null), ("ref_location", r.location.encode)]

/-- Reads a reference. -/
def decode? (d : Data) : Option TypeRef := do
  match ← d.slots? ["name", "phantom", "ref_location"] with
  | [some name, some phantom, some location] =>
    phantom.null?
    return ⟨← name.str?, ← SourceLocation.decode? location⟩
  | _ => none

end TypeRef

namespace Parameter

/-- The stored form of an argument. -/
def encode (p : Parameter) : Data :=
  .record [("def_location", p.location.encode), ("default_value", .ofText? p.default),
    ("description", .ofText? p.description), ("name", .str p.name),
    ("type_annotation", p.type.encode)]

/-- Reads an argument. -/
def decode? (d : Data) : Option Parameter := do
  match ← d.slots? ["def_location", "default_value", "description", "name", "type_annotation"] with
  | [some location, default, description, some name, some type] =>
    return ⟨← SourceLocation.decode? location, ← Data.option? Data.str? default,
      ← Data.option? Data.str? description, ← name.str?, ← DeclaredType.decode? type⟩
  | _ => none

end Parameter

namespace Field

/-- The stored form of a field. -/
def encode (f : Field) : Data :=
  .record [("def_location", f.location.encode), ("deprecation_reason", .ofText? f.deprecation),
    ("description", .ofText? f.description), ("name", .str f.name),
    ("parameters", .ofDict Parameter.encode f.parameters), ("parent_type", f.parent.encode),
    ("type_annotation", f.type.encode)]

/-- Reads a field. -/
def decode? (d : Data) : Option Field := do
  match ← d.slots? ["def_location", "deprecation_reason", "description", "name", "parameters",
      "parent_type", "type_annotation"] with
  | [some location, deprecation, description, some name, some parameters, some parent,
      some type] =>
    return ⟨← SourceLocation.decode? location, ← Data.option? Data.str? deprecation,
      ← Data.option? Data.str? description, ← name.str?,
      ← Data.dict? Parameter.decode? parameters, ← TypeRef.decode? parent,
      ← DeclaredType.decode? type⟩
  | _ => none

end Field

namespace EnumValue

/-- The stored form of an enum value. -/
def encode (v : EnumValue) : Data :=
  .record [("def_location", v.location.encode), ("deprecation_reason", .ofText? v.deprecation),
    ("description", .ofText? v.description), ("enum_type_name", .str v.enumName),
    ("name", .str v.name)]

/-- Reads an enum value. -/
def decode? (d : Data) : Option EnumValue := do
  match ← d.slots? ["def_location", "deprecation_reason", "description", "enum_type_name",
      "name"] with
  | [some location, deprecation, description, some enumName, some name] =>
    return ⟨← SourceLocation.decode? location, ← Data.option? Data.str? deprecation,
      ← Data.option? Data.str? description, ← enumName.str?, ← name.str?⟩
  | _ => none

end EnumValue

namespace EnumType

/-- The stored form of an enum. -/
def encode (t : EnumType) : Data :=
  .record [("def_location", t.location.encode), ("description", .ofText? t.description),
    ("name", .str t.name), ("values", .ofDict EnumValue.encode t.values)]

/-- Reads an enum. -/
def decode? (d : Data) : Option EnumType := do
  match ← d.slots? ["def_location", "description", "name", "values"] with
  | [some location, description, some name, some values] =>
    return ⟨← SourceLocation.decode? location, ← Data.option? Data.str? description,
      ← name.str?, ← Data.dict? EnumValue.decode? values⟩
  | _ => none

end EnumType

namespace ScalarType

/-- The stored form of a scalar. -/
def encode (t : ScalarType) : Data :=
  .record [("def_location", t.location.encode), ("description", .ofText? t.description),
    ("name", .str t.name)]

/-- Reads a scalar. -/
def decode? (d : Data) : Option ScalarType := do
  match ← d.slots? ["def_location", "description", "name"] with
  | [some location, description, some name] =>
    return ⟨← SourceLocation.decode? location, ← Data.option? Data.str? description,
      ← name.str?⟩
  | _ => none

end ScalarType

namespace InputObjectType

/-- The stored form of an input object. -/
def encode (t : InputObjectType) : Data :=
  .record [("def_location", t.location.encode), ("description", .ofText? t.description),
    ("fields", .ofDict Field.encode t.fields), ("name", .str t.name)]

/-- Reads an input object. -/
def decode? (d : Data) : Option InputObjectType := do
  match ← d.slots? ["def_location", "description", "fields", "name"] with
  | [some location, description, some fields, some name] =>
    return ⟨← SourceLocation.decode? location, ← Data.option? Data.str? description,
      ← Data.dict? Field.decode? fields, ← name.str?⟩
  | _ => none

end InputObjectType

namespace FieldedType

/-- The stored form of an object or an interface. -/
def encode (t : FieldedType) : Data :=
  .record [("def_location", t.location.encode), ("description", .ofText? t.description),
    ("fields", .ofDict Field.encode t.fields),
    ("interfaces", .list (t.interfaces.map TypeRef.encode)), ("name", .str t.name)]

/-- Reads an object or an interface. -/
def decode? (d : Data) : Option FieldedType := do
  match ← d.slots? ["def_location", "description", "fields", "interfaces", "name"] with
  | [some location, description, some fields, some interfaces, some name] =>
    return ⟨← SourceLocation.decode? location, ← Data.option? Data.str? description,
      ← Data.dict? Field.decode? fields, ← Data.list? TypeRef.decode? interfaces, ← name.str?⟩
  | _ => none

end FieldedType

namespace UnionType

/-- The stored form of a union. -/
def encode (t : UnionType) : Data :=
  .record [("def_location", t.location.encode), ("description", .ofText? t.description),
    ("name", .str t.name), ("members", .ofDict TypeRef.encode t.members)]

/-- Reads a union. -/
def decode? (d : Data) : Option UnionType := do
  match ← d.slots? ["def_location", "description", "name", "members"] with
  | [some location, description, some name, some members] =>
    return ⟨← SourceLocation.decode? location, ← Data.option? Data.str? description,
      ← name.str?, ← Data.dict? TypeRef.decode? members⟩
  | _ => none

end UnionType

namespace NamedType

/-- The stored form of a type: its kind, with its content. -/
def encode (t : NamedType) : Data :=
  .choice t.kind.label <|
    match t with
    | enum t => t.encode
    | inputObject t => t.encode
    | interface t | object t => t.encode
    | scalar t => t.encode
    | union t => t.encode

/-- Reads a type. -/
def decode? (d : Data) : Option NamedType := do
  match ← d.choice? with
  | ("Enum", some content) => return enum (← EnumType.decode? content)
  | ("InputObject", some content) => return inputObject (← InputObjectType.decode? content)
  | ("Interface", some content) => return interface (← FieldedType.decode? content)
  | ("Object", some content) => return object (← FieldedType.decode? content)
  | ("Scalar", some content) => return scalar (← ScalarType.decode? content)
  | ("Union", some content) => return union (← UnionType.decode? content)
  | _ => none

end NamedType

end EntityGraph
