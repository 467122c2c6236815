import EntityGraph.Data.Source
import EntityGraph.Document

/-!
# Stored documents

Reading a stored document checks its form only: unlike a document that was read from a text, it may
hold several operations of one name.
-/

namespace EntityGraph

namespace Selection

mutual

/-- The stored form of a selection. -/
def encode : Selection → Data
  | field aliasName name location selections =>
    .choice "Field" (.record [("alias", .ofText? aliasName), ("def_location", location.encode),
      ("name", .str name), ("selection_set", .record [("selections", .list (encodeAll selections))])])
  | spread fragment location =>
    .choice "FragmentSpread" (.record [("def_location", location.encode),
      ("fragment_name", .str fragment)])
  | inline condition location selections =>
    .choice "InlineFragment" (.record [("def_location", location.encode),
      ("selection_set", .record [("selections", .list (encodeAll selections))]),
      ("type_condition", .ofText? condition)])

/-- The stored forms of selections. -/
def encodeAll : List Selection → List Data
  | [] => []
  | s :: rest => encode s :: encodeAll rest

end

/-- The stored form of a selection set. -/
def encodeSet (selections : List Selection) : Data :=
  .record [("selections", .list (encodeAll selections))]

/-- Reads a selection set, where `item` reads a selection. -/
def decodeSetWith? (item : Data → Option Selection) (d : Data) : Option (List Selection) := do
  match ← d.slots? ["selections"] with
  | [some selections] => Data.list? item selections
  | _ => none

/-- Reads a selection from data of bounded depth. -/
def decodeWithin? : (depth : Nat) → Data → Option Selection
  | 0, _ => none
  | depth + 1, d => do
    match ← d.choice? with
    | ("Field", some content) =>
      match ← content.slots? ["alias", "def_location", "name", "selection_set"] with
      | [aliasName, some location, some name, some selections] =>
        return field (← Data.option? Data.str? aliasName) (← name.str?)
          (← SourceLocation.decode? location)
          (← decodeSetWith? (decodeWithin? depth) selections)
      | _ => none
    | ("FragmentSpread", some content) =>
      match ← content.slots? ["def_location", "fragment_name"] with
      | [some location, some name] =>
        return spread (← name.str?) (← SourceLocation.decode? location)
      | _ => none
    | ("InlineFragment", some content) =>
      match ← content.slots? ["def_location", "selection_set", "type_condition"] with
      | [some location, some selections, condition] =>
        return inline (← Data.option? Data.str? condition) (← SourceLocation.decode? location)
          (← decodeSetWith? (decodeWithin? depth) selections)
      | _ => none
    | _ => none

/-- Reads a selection. -/
def decode? (d : Data) : Option Selection := decodeWithin? d.depth d

/-- Reads a selection set. -/
def decodeSet? (d : Data) : Option (List Selection) := decodeSetWith? decode? d

end Selection

namespace OperationDefinition

/-- The stored form of an operation. -/
def encode (d : OperationDefinition) : Data :=
  .record [("def_location", d.location.encode), ("kind", d.kind.encode), ("name", .ofText? d.name),
    ("selection_set", Selection.encodeSet d.selections)]

/-- Reads an operation. -/
def decode? (d : Data) : Option OperationDefinition := do
  match ← d.slots? ["def_location", "kind", "name", "selection_set"] with
  | [some location, some kind, name, some selections] =>
    return ⟨← SourceLocation.decode? location, ← OperationKind.decode? kind,
      ← Data.option? Data.str? name, ← Selection.decodeSet? selections⟩
  | _ => none

end OperationDefinition

namespace FragmentDefinition

/-- The stored form of a fragment. -/
def encode (d : FragmentDefinition) : Data :=
  .record [("def_location", d.location.encode), ("name", .str d.name),
    ("selection_set", Selection.encodeSet d.selections), ("type_condition", .str d.condition)]

/-- Reads a fragment. -/
def decode? (d : Data) : Option FragmentDefinition := do
  match ← d.slots? ["def_location", "name", "selection_set", "type_condition"] with
  | [some location, some name, some selections, some condition] =>
    return ⟨← SourceLocation.decode? location, ← name.str?, ← Selection.decodeSet? selections,
      ← condition.str?⟩
  | _ => none

end FragmentDefinition

namespace Document

/-- The stored form of a document. -/
def encode (d : Document) : Data :=
  .record [("file_path", .ofText? (d.file.map SourcePath.text)),
    ("fragments", .list (d.fragments.map FragmentDefinition.encode)),
    ("operations", .list (d.operations.map OperationDefinition.encode))]

/-- Reads a document. -/
def decode? (d : Data) : Option Document := do
  match ← d.slots? ["file_path", "fragments", "operations"] with
  | [file, some fragments, some operations] =>
    return ⟨(← Data.option? Data.str? file).map SourcePath.mk,
      ← Data.list? FragmentDefinition.decode? fragments,
      ← Data.list? OperationDefinition.decode? operations⟩
  | _ => none

end Document

end EntityGraph
