import EntityGraph.Grammar.Literal
import EntityGraph.Grammar.TypeSystem
import EntityGraph.Schema.Types

/-!
# From written definitions to types

Each definition of a schema text stands for a named type. A name that is given twice among
arguments, input fields, enum values or union members keeps its first place and its last content.
-/

namespace EntityGraph

open Grammar (InputValueDefinition FieldDefinition EnumValueDefinition TypeDefinition Directive)

/-- The reason given when a deprecation does not say why. -/
def defaultDeprecation : String := "No longer supported"

/-- The reason that an argument of `@deprecated` gives. -/
def reason? : Name × Grammar.Value → Option String
  | ("reason", .string s) => some s
  | _ => none

/-- Why something is deprecated: what its first `@deprecated` gives as a reason, if it has one. -/
def deprecation? (directives : List Directive) : Option String := do
  let directive ← directives.find? (·.name = "deprecated")
  return (directive.arguments.findSome? reason?).getD defaultDeprecation

variable (file : Option SourcePath)

/-- The argument that a definition stands for. -/
def Parameter.ofDefinition (d : InputValueDefinition) : Parameter where
  location := .inSchema file d.pos
  default := d.default.map (·.render)
  description := d.description
  name := d.name
  type := .ofTypeExpr d.type

/-- The field of an object or interface that a definition stands for. -/
def Field.ofDefinition (parent : Name) (d : FieldDefinition) : Field where
  location := .inSchema file d.pos
  deprecation := deprecation? d.directives
  description := d.description
  name := d.name
  parameters := .ofValues (·.name) (d.arguments.map (.ofDefinition file))
  parent := ⟨parent, .inSchema file d.pos⟩
  type := .ofTypeExpr d.type

/-- The field of an input object that a definition stands for. -/
def Field.ofInputValue (parent : Name) (d : InputValueDefinition) : Field where
  location := .inSchema file d.pos
  deprecation := deprecation? d.directives
  description := d.description
  name := d.name
  parameters := ∅
  parent := ⟨parent, .inSchema file d.pos⟩
  type := .ofTypeExpr d.type

/-- The enum value that a definition stands for. -/
def EnumValue.ofDefinition (enumName : Name) (d : EnumValueDefinition) : EnumValue where
  location := .inSchema file d.pos
  deprecation := deprecation? d.directives
  description := d.description
  enumName := enumName
  name := d.name

namespace FieldedType

/-- Adds a field that is not there yet. -/
def addField (t : FieldedType) (d : FieldDefinition) : FieldedType :=
  if t.fields.contains d.name then t
  else { t with fields := t.fields.insert d.name (.ofDefinition file t.name d) }

/-- Adds an interface that is not named yet. -/
def addInterface (location : SourceLocation) (t : FieldedType) (name : Name) : FieldedType :=
  if t.implements name then t
  else { t with interfaces := t.interfaces ++ [⟨name, location⟩] }

/-- Adds the fields and interfaces of a definition or an extension that stands at `location`. -/
def extend (location : SourceLocation) (interfaces : List Name) (fields : List FieldDefinition)
    (t : FieldedType) : FieldedType :=
  interfaces.foldl (addInterface location) (fields.foldl (addField file) t)

/-- The object or interface that a definition stands for. Its first field is `__typename`. -/
def ofDefinition (d : TypeDefinition) (interfaces : List Name) (fields : List FieldDefinition) :
    FieldedType :=
  let location := SourceLocation.inSchema file d.pos
  extend file location interfaces fields
    { location := location
      description := d.description
      fields := .ofValues (·.name) [.typename d.name]
      interfaces := []
      name := d.name }

end FieldedType

/-- The type that a definition stands for. -/
def NamedType.ofDefinition (d : TypeDefinition) : NamedType :=
  let location := SourceLocation.inSchema file d.pos
  match d.body with
  | .scalar => .scalar ⟨location, d.description, d.name⟩
  | .object interfaces fields => .object (.ofDefinition file d interfaces fields)
  | .interface interfaces fields => .interface (.ofDefinition file d interfaces fields)
  | .union members =>
    .union ⟨location, d.description, d.name, .ofList (members.map fun m => (m, ⟨m, location⟩))⟩
  | .enum values =>
    .enum ⟨location, d.description, d.name,
      .ofValues (·.name) (values.map (.ofDefinition file d.name))⟩
  | .inputObject fields =>
    .inputObject ⟨location, d.description,
      .ofValues (·.name) (fields.map (.ofInputValue file d.name)), d.name⟩

end EntityGraph
