import EntityGraph.Grammar.Value
import EntityGraph.Kind

/-!
# Schema texts

The definitions of a schema text, as they are written, and their grammar. It is `graphql-parser`
that decides which place a definition keeps: that of its keyword, and for a field, an argument, an
input field or an enum value that of its description if it has one, and of its name if not. It also
takes no extension without content. Directive definitions have no effect on a schema, so only their
names are kept.
-/

namespace EntityGraph.Grammar

/-- An argument of a field, or a field of an input object. -/
structure InputValueDefinition where
  pos : Pos
  description : Option String
  name : Name
  type : TypeExpr
  default : Option Value
  directives : List Directive

/-- A field of an object type or an interface. -/
structure FieldDefinition where
  pos : Pos
  description : Option String
  name : Name
  arguments : List InputValueDefinition
  type : TypeExpr
  directives : List Directive

/-- A value of an enum. -/
structure EnumValueDefinition where
  pos : Pos
  description : Option String
  name : Name
  directives : List Directive

/-- What a type definition says beyond its name. -/
inductive TypeBody where
  | scalar
  | object (interfaces : List Name) (fields : List FieldDefinition)
  | interface (interfaces : List Name) (fields : List FieldDefinition)
  | union (members : List Name)
  | enum (values : List EnumValueDefinition)
  | inputObject (fields : List InputValueDefinition)

/-- A type definition, or the definition that extends a type. -/
structure TypeDefinition where
  pos : Pos
  description : Option String
  name : Name
  body : TypeBody

/-- A block that names root types. -/
structure SchemaBlock where
  pos : Pos
  query : Option Name
  mutation : Option Name
  subscription : Option Name

/-- The root type that a block names for a kind of operations. -/
def SchemaBlock.root (block : SchemaBlock) : OperationKind → Option Name
  | .mutation => block.mutation
  | .query => block.query
  | .subscription => block.subscription

/-- A definition of a schema text. -/
inductive Definition where
  | schema (block : SchemaBlock)
  | type (definition : TypeDefinition)
  | extension (definition : TypeDefinition)
  | directive (name : Name)

namespace Parser

/-- A description, if one stands here. -/
def description : Parser (Option String) := do
  match ← peek with
  | some (.text s) =>
    let _ ← next
    return some s
  | _ => return none

/-- An argument definition, or a field of an input object. -/
def inputValue : Parser InputValueDefinition := do
  let pos ← position
  let description ← description
  let name ← name
  punct .colon
  let type ← typeExpr
  let default ← defaultValue
  let directives ← directives
  return { pos, description, name, type, default, directives }

/-- A field of an object type or an interface. -/
def fieldDefinition : Parser FieldDefinition := do
  let pos ← position
  let description ← description
  let name ← name
  let arguments ← group .openParen .closeParen inputValue
  punct .colon
  let type ← typeExpr
  let directives ← directives
  return { pos, description, name, arguments, type, directives }

/-- A value of an enum. -/
def enumValue : Parser EnumValueDefinition := do
  let pos ← position
  let description ← description
  let name ← name
  let directives ← directives
  return { pos, description, name, directives }

/-- The interfaces that a type says it implements. -/
def implemented : Parser (List Name) := do
  if ← atKeyword "implements" then
    let _ ← next
    divided .amp name
  else
    return []

/-- The members of a union, if any are given. -/
def members : Parser (List Name) := do
  if ← skipPunct .equals then divided .pipe name else return []

/-- A type definition from its keyword on, and whether it says anything that an extension could
add. Interfaces alone are no such addition to an interface. -/
def typeDefinition (description : Option String) : Parser (TypeDefinition × Bool) := do
  let pos ← position
  let word ← name
  let typeName ← name
  match word with
  | "scalar" =>
    let directives ← directives
    return (⟨pos, description, typeName, .scalar⟩, !directives.isEmpty)
  | "type" =>
    let interfaces ← implemented
    let directives ← directives
    let fields ← group .openBrace .closeBrace fieldDefinition
    return (⟨pos, description, typeName, .object interfaces fields⟩,
      !interfaces.isEmpty || !directives.isEmpty || !fields.isEmpty)
  | "interface" =>
    let interfaces ← implemented
    let directives ← directives
    let fields ← group .openBrace .closeBrace fieldDefinition
    return (⟨pos, description, typeName, .interface interfaces fields⟩,
      !directives.isEmpty || !fields.isEmpty)
  | "union" =>
    let directives ← directives
    let members ← members
    return (⟨pos, description, typeName, .union members⟩, !directives.isEmpty || !members.isEmpty)
  | "enum" =>
    let directives ← directives
    let values ← group .openBrace .closeBrace enumValue
    return (⟨pos, description, typeName, .enum values⟩, !directives.isEmpty || !values.isEmpty)
  | "input" =>
    let directives ← directives
    let fields ← group .openBrace .closeBrace inputValue
    return (⟨pos, description, typeName, .inputObject fields⟩,
      !directives.isEmpty || !fields.isEmpty)
  | _ => failure

/-- The places where a directive may be allowed to stand. -/
def directiveLocations : List Name :=
  ["QUERY", "MUTATION", "SUBSCRIPTION", "FIELD", "FRAGMENT_DEFINITION", "FRAGMENT_SPREAD",
    "INLINE_FRAGMENT", "SCHEMA", "SCALAR", "OBJECT", "FIELD_DEFINITION", "ARGUMENT_DEFINITION",
    "INTERFACE", "UNION", "ENUM", "ENUM_VALUE", "INPUT_OBJECT", "INPUT_FIELD_DEFINITION",
    "VARIABLE_DEFINITION"]

/-- A place where a directive may stand. -/
def directiveLocation : Parser Unit := do
  if (← name) ∈ directiveLocations then pure () else failure

/-- A directive definition. Its list of places may be missing if no name follows. -/
def directiveDefinition : Parser Definition := do
  keyword "directive"
  punct .at
  let n ← name
  let _ ← group .openParen .closeParen inputValue
  if ← atKeyword "repeatable" then
    let _ ← next
  keyword "on"
  match ← peek with
  | some (.name _) | some (.punct .pipe) =>
    let _ ← divided .pipe directiveLocation
  | _ => pure ()
  return .directive n

/-- A block that names root types, each kind of operation at most once. -/
def schemaBlock : Parser Definition := do
  let pos ← position
  keyword "schema"
  let _ ← directives
  punct .openBrace
  let roots ← items .closeBrace do
    let kind ← name
    punct .colon
    return (kind, ← name)
  let kinds := roots.map Prod.fst
  if kinds.Nodup ∧ ∀ kind ∈ kinds, kind ∈ ["query", "mutation", "subscription"] then
    return .schema ⟨pos, roots.lookup "query", roots.lookup "mutation", roots.lookup "subscription"⟩
  else
    failure

/-- A definition of a schema text. -/
def schemaDefinition : Parser Definition := do
  match ← peek with
  | some (.name "schema") => schemaBlock
  | some (.name "extend") =>
    let _ ← next
    let (definition, adds) ← typeDefinition none
    if adds then return .extension definition else failure
  | _ =>
    let description ← description
    if ← atKeyword "directive" then
      directiveDefinition
    else
      let (definition, _) ← typeDefinition description
      return .type definition

end Parser

/-- The definitions of a schema text. -/
def Definition.parse? (text : String) : Option (List Definition) :=
  Parser.schemaDefinition.toEnd.parse? text

end EntityGraph.Grammar
