import EntityGraph.Data.Basic
import EntityGraph.DeclaredType
import EntityGraph.Kind
import EntityGraph.Location

/-!
# Stored positions, kinds, declared types and locations
-/

namespace EntityGraph

namespace FilePosition

/-- The stored form of a position. -/
def encode (p : FilePosition) : Data :=
  .record [("col", .nat p.col.toNat), ("file", .ofText? (p.file.map SourcePath.text)),
    ("line", .nat p.line.toNat)]

/-- Reads a position. -/
def decode? (d : Data) : Option FilePosition := do
  match ← d.slots? ["col", "file", "line"] with
  | [some col, file, some line] =>
    return ⟨← col.word?, (← Data.option? Data.str? file).map SourcePath.mk, ← line.word?⟩
  | _ => none

end FilePosition

namespace SourceLocation

/-- The stored form of a place. -/
def encode : SourceLocation → Data
  | builtIn => .str "GraphQLBuiltIn"
  | executable p => .choice "ExecutableDocument" p.encode
  | schema p => .choice "Schema" p.encode

/-- Reads a place. -/
def decode? (d : Data) : Option SourceLocation := do
  match ← d.choice? with
  | ("GraphQLBuiltIn", content) =>
    Data.bare content
    return builtIn
  | ("ExecutableDocument", some content) => return executable (← FilePosition.decode? content)
  | ("Schema", some content) => return schema (← FilePosition.decode? content)
  | _ => none

end SourceLocation

namespace TypeKind

/-- The stored form of a kind of types. -/
def encode (kind : TypeKind) : Data := .str kind.label

/-- Reads a kind of types. -/
def decode? (d : Data) : Option TypeKind := do
  let (name, content) ← d.choice?
  Data.bare content
  [enum, inputObject, interface, object, scalar, union].find? (·.label = name)

end TypeKind

namespace OperationKind

/-- The stored form of a kind of operations. -/
def encode (kind : OperationKind) : Data := .str kind.defaultRootName

/-- Reads a kind of operations. -/
def decode? (d : Data) : Option OperationKind := do
  let (name, content) ← d.choice?
  Data.bare content
  [mutation, query, subscription].find? (·.defaultRootName = name)

end OperationKind

namespace DeclaredType

/-- The stored form of a declared type. -/
def encode : DeclaredType → Data
  | named name nullable =>
    .choice "Named" (.record [("nullable", .bool nullable), ("type_name", .str name)])
  | list inner nullable =>
    .choice "List" (.record [("inner_type_annotation", inner.encode), ("nullable", .bool nullable)])

/-- Reads the content of a named type. -/
def decodeNamed? (d : Data) : Option DeclaredType := do
  match ← d.slots? ["nullable", "type_name"] with
  | [some nullable, some name] => return named (← name.str?) (← nullable.bool?)
  | _ => none

/-- Reads the content of a list type, where `inner` reads what the list holds. -/
def decodeListWith? (inner : Data → Option DeclaredType) (d : Data) : Option DeclaredType := do
  match ← d.slots? ["inner_type_annotation", "nullable"] with
  | [some content, some nullable] => return list (← inner content) (← nullable.bool?)
  | _ => none

/-- Reads a declared type from data of bounded depth. -/
def decodeWithin? : (depth : Nat) → Data → Option DeclaredType
  | 0, _ => none
  | depth + 1, d => do
    match ← d.choice? with
    | ("Named", some content) => decodeNamed? content
    | ("List", some content) => decodeListWith? (decodeWithin? depth) content
    | _ => none

/-- Reads a declared type. -/
def decode? (d : Data) : Option DeclaredType := decodeWithin? d.depth d

/-- Reads the content of a list type. -/
def decodeList? (d : Data) : Option DeclaredType := decodeListWith? decode? d

end DeclaredType

namespace LocationStep

/-- The stored form of a step. -/
def encode (step : LocationStep) : Data :=
  .record [("response_key", .str step.key), ("type_name", .str step.typeName)]

/-- Reads a step. -/
def decode? (d : Data) : Option LocationStep := do
  match ← d.slots? ["response_key", "type_name"] with
  | [some key, some typeName] => return ⟨← key.str?, ← typeName.str?⟩
  | _ => none

end LocationStep

namespace LocationSource

/-- The stored form of a unit. -/
def encode : LocationSource → Data
  | fragment name condition =>
    .choice "NamedFragment" (.record [("name", .str name), ("type_condition", .str condition)])
  | operation name rootType =>
    .choice "Operation" (.record [("name", .ofText? name), ("root_type", .str rootType)])

/-- Reads a unit. -/
def decode? (d : Data) : Option LocationSource := do
  match ← d.choice? with
  | ("NamedFragment", some content) =>
    match ← content.fields? ["name", "type_condition"] with
    | [some name, some condition] => return fragment (← name.str?) (← condition.str?)
    | _ => none
  | ("Operation", some content) =>
    match ← content.fields? ["name", "root_type"] with
    | [name, some rootType] => return operation (← Data.option? Data.str? name) (← rootType.str?)
    | _ => none
  | _ => none

end LocationSource

namespace Location

/-- The stored form of a location. -/
def encode (l : Location) : Data :=
  .record [("path", .list (l.path.map LocationStep.encode)), ("source", l.source.encode)]

/-- Reads a location. -/
def decode? (d : Data) : Option Location := do
  match ← d.slots? ["path", "source"] with
  | [some path, some source] =>
    return ⟨← Data.list? LocationStep.decode? path, ← LocationSource.decode? source⟩
  | _ => none

end Location

end EntityGraph
