import EntityGraph.Kind
import EntityGraph.Text

/-!
# What can be wrong with a schema, and with a question to it
-/

namespace EntityGraph

/-- Why a schema cannot be built. -/
inductive SchemaError where
  /-- Two schema blocks name a root type for one kind of operations. -/
  | duplicateRoot (operation : OperationKind) (first second : SourceLocation)
  | duplicateField (type field : Name) (location : SourceLocation)
  | duplicateType (type : Name) (first second : SourceLocation)
  | extensionOfUndefined (type : Name) (location : SourceLocation)
  | implementsNonInterface (type interface : Name) (location : SourceLocation)
  /-- A type name starts with two underscores. -/
  | reservedName (location : SourceLocation) (type : Name)
  | invalidRoot (operation : OperationKind) (type : Name) (kind : TypeKind)
  | invalidMember (union member : Name) (location : SourceLocation)
  | noQueryType
  | parse (file : SourcePath)
  | undefinedType (type : Name) (referencedFrom : String) (location : SourceLocation)
  | undefinedRoot (operation : OperationKind) (type : Name)
  | unsupportedExtension (type : Name) (location : SourceLocation)

/-- The text of a schema error. -/
def SchemaError.message : SchemaError → String
  | duplicateRoot operation _ _ =>
    s!"Multiple `{operation.keyword}` root operation types were defined"
  | duplicateField type field _ => s!"The `{type}.{field}` field is defined more than once"
  | duplicateType type _ _ => s!"Multiple definitions of the `{type}` type"
  | extensionOfUndefined type _ =>
    s!"Attempted to extend the `{type}` type, but it is not defined"
  | implementsNonInterface type interface _ =>
    s!"The `{type}` type declares that it implements `{interface}`, but `{interface}` is not an " ++
      "interface type"
  | reservedName _ type => s!"Type names may not start with `__`: `{type}`"
  | invalidRoot operation type kind =>
    s!"The `{type}` type is used as the {operation.keyword} root type, but it is a {kind.label} " ++
      "type (root operation types must be object types)"
  | invalidMember union member _ =>
    s!"The `{union}` union includes `{member}`, but union members must be defined object types"
  | noQueryType => "No query type was defined for this schema"
  | parse file => s!"Error parsing schema document `{Text.quote file.text}`: "
  | undefinedType type referencedFrom _ =>
    s!"`{referencedFrom}` refers to the `{type}` type, but no such type is defined"
  | undefinedRoot operation type =>
    s!"The `{operation.keyword}` root operation type `{type}` is not defined"
  | unsupportedExtension type _ =>
    s!"Extending `{type}` is not supported (only object types can be extended)"

/-- Why a question to a schema has no answer. -/
inductive LookupError where
  | notComposite (type : Name) (kind : TypeKind)
  | unknownType (type : Name)
deriving DecidableEq

/-- The text of a lookup error. -/
def LookupError.message : LookupError → String
  | notComposite type kind =>
    s!"`{type}` is an {kind.label} type, but a composite type was expected"
  | unknownType type => s!"No type named `{type}` is defined in the schema"

/-- The text for a reference to a type that the schema does not have. -/
def danglingMessage (name : Name) : String := s!"Dangling reference to `{name}`"

end EntityGraph
