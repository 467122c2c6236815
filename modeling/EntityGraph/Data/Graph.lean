import EntityGraph.Build.Builder
import EntityGraph.Data.Document

/-!
# Stored compilation units

Compiled operations and fragments are stored for code generators to read. Entities and their fields
are stored as lists, and the fragments that a unit uses by their names.
-/

namespace EntityGraph

/-- The stored form of an entity field. -/
def EntityField.encode (f : EntityField) : Data :=
  .record [("entity", .ofOption Location.encode f.child), ("field_name", .str f.name),
    ("response_key", .str f.key), ("type_annotation", f.type.encode),
    ("type_conditions", .ofNames f.conditions.toList)]

/-- The stored form of an entity. -/
def Entity.encode (e : Entity) : Data :=
  .record [("fields", .list (e.fields.values.map EntityField.encode)),
    ("location", e.location.encode), ("merged_fragments", .ofNames e.mergedFragments.toList),
    ("root_type", .str e.rootType)]

/-- The stored form of a compiled definition. -/
def Compiled.encode {δ : Type} (definition : δ → Data) (c : Compiled δ) : Data :=
  .record [("definition", definition c.definition),
    ("entities", .list (c.entities.values.map Entity.encode)),
    ("referenced_fragments", .ofNames c.referenced.keys), ("root_field", c.rootField.encode)]

/-- The stored form of a compiled operation. -/
def Operation.encode (o : Operation) : Data := Compiled.encode OperationDefinition.encode o

/-- The stored form of a compiled fragment. -/
def Fragment.encode (f : Fragment) : Data :=
  Compiled.encode FragmentDefinition.encode f.toCompiled

/-- The stored form of a compiled document. -/
def CompiledDocument.encode (d : CompiledDocument) : Data :=
  .record [("fragments", .list (d.fragments.map Fragment.encode)),
    ("operations", .list (d.operations.map Operation.encode))]

end EntityGraph
