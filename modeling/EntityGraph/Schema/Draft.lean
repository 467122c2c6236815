import EntityGraph.Log
import EntityGraph.Schema.Basic
import EntityGraph.Schema.Definition

/-!
# Building a schema

A draft collects the definitions of any number of schema texts. Types are entered as they come,
while extensions of object types wait until the schema is built, so that a type can be extended
before it is defined. `Draft.finish` applies the extensions, checks that every name that is used is
defined and fits, and settles the root types.
-/

namespace EntityGraph

open Grammar (FieldDefinition TypeDefinition SchemaBlock Definition)

/-- An extension of an object type, which waits to be applied. -/
structure ObjectExtension where
  file : Option SourcePath
  pos : Pos
  name : Name
  interfaces : List Name
  fields : List FieldDefinition

/-- Where an extension stands. -/
def ObjectExtension.location (e : ObjectExtension) : SourceLocation := .inSchema e.file e.pos

/-- A schema under construction. -/
structure Draft where
  types : Dict Name NamedType
  /-- The extensions of object types, in the order in which they were loaded. -/
  extensions : List ObjectExtension
  mutation : Option TypeRef
  query : Option TypeRef
  subscription : Option TypeRef
  /-- How many texts without a file name were loaded, counted in sixteen bits. -/
  unnamedTexts : UInt16
  log : Log

namespace Draft

/-- The draft of a schema without definitions, which has the built-in scalars. -/
def empty : Draft where
  types := .ofList (builtInScalarNames.map fun n => (n, .scalar (.builtIn n)))
  extensions := []
  mutation := none
  query := none
  subscription := none
  unnamedTexts := 0
  log := []

/-! ## Entering definitions -/

/-- The first field whose name is among `taken` or among the names of the fields before it. -/
def firstRepeated? (taken : List Name) : List FieldDefinition → Option FieldDefinition
  | [] => none
  | f :: rest => if f.name ∈ taken then some f else firstRepeated? (f.name :: taken) rest

/-- A definition of an object or an interface gives each field once, and `__typename` never. -/
def checkFields (file : Option SourcePath) (type : Name) (fields : List FieldDefinition) :
    Except SchemaError Unit :=
  match firstRepeated? [typenameField] fields with
  | some f => .error (.duplicateField type f.name (.inSchema file f.pos))
  | none => .ok ()

/-- Checks the fields that a definition of an object or an interface gives. -/
def checkDefinition (file : Option SourcePath) (d : TypeDefinition) : Except SchemaError Unit :=
  match d.body with
  | .object _ fields | .interface _ fields => checkFields file d.name fields
  | .scalar | .union _ | .enum _ | .inputObject _ => .ok ()

/-- Names that start with two underscores belong to the language. -/
def isReserved (name : Name) : Bool := ['_', '_'].isPrefixOf name.toList

/-- Enters a type under its name, which has to be new and must not be reserved. -/
def addType (draft : Draft) (name : Name) (location : SourceLocation) (type : NamedType) :
    Except SchemaError Draft :=
  if isReserved name then .error (.reservedName location name)
  else
    match draft.types.find? name with
    | some other => .error (.duplicateType name other.location location)
    | none => .ok { draft with types := draft.types.insert name type }

/-- The root type that was named for a kind of operations. -/
def root? (draft : Draft) : OperationKind → Option TypeRef
  | .mutation => draft.mutation
  | .query => draft.query
  | .subscription => draft.subscription

/-- Names the root type for a kind of operations. -/
def setRoot (draft : Draft) (ref : TypeRef) : OperationKind → Draft
  | .mutation => { draft with mutation := some ref }
  | .query => { draft with query := some ref }
  | .subscription => { draft with subscription := some ref }

/-- Names the root type for a kind of operations, unless one was named before. -/
def addRoot (draft : Draft) (kind : OperationKind) (ref : TypeRef) : Except SchemaError Draft :=
  match draft.root? kind with
  | some other => .error (.duplicateRoot kind other.location ref.location)
  | none => .ok (draft.setRoot ref kind)

/-- Takes over the root types that a schema block names. -/
def addBlock (draft : Draft) (file : Option SourcePath) (block : SchemaBlock) :
    Except SchemaError Draft :=
  [OperationKind.query, .mutation, .subscription].foldlM (fun draft kind =>
    match block.root kind with
    | none => .ok draft
    | some name => draft.addRoot kind ⟨name, .inSchema file block.pos⟩) draft

/-- Keeps an extension of an object type; no other kind of type can be extended. -/
def addExtension (draft : Draft) (file : Option SourcePath) (d : TypeDefinition) :
    Except SchemaError Draft :=
  match d.body with
  | .object interfaces fields =>
    .ok { draft with extensions := draft.extensions ++ [⟨file, d.pos, d.name, interfaces, fields⟩] }
  | .scalar | .interface _ _ | .union _ | .enum _ | .inputObject _ =>
    .error (.unsupportedExtension d.name (.inSchema file d.pos))

/-- Enters one definition. -/
def add (draft : Draft) (file : Option SourcePath) : Definition → Except SchemaError Draft
  | .schema block => draft.addBlock file block
  | .type d => do
    checkDefinition file d
    draft.addType d.name (.inSchema file d.pos) (.ofDefinition file d)
  | .extension d => draft.addExtension file d
  | .directive name => .ok { draft with log := .skippedDirective name :: draft.log }

/-! ## Finishing -/

/-- Applies one extension: it has to extend an object type, and to give new fields only. -/
def applyExtension (types : Dict Name NamedType) (e : ObjectExtension) :
    Except SchemaError (Dict Name NamedType) :=
  match types.find? e.name with
  | some (.object t) =>
    match firstRepeated? t.fields.keys e.fields with
    | some f => .error (.duplicateField e.name f.name e.location)
    | none =>
      .ok (types.insert e.name (.object (t.extend e.file e.location e.interfaces e.fields)))
  | some _ => .error (.unsupportedExtension e.name e.location)
  | none => .error (.extensionOfUndefined e.name e.location)

/-- The type `name`, which `source` refers to, is defined. -/
def checkDefined (types : Dict Name NamedType) (name : Name) (source : String)
    (location : SourceLocation) : Except SchemaError Unit :=
  if types.contains name then .ok () else .error (.undefinedType name source location)

/-- The types of a field and of its arguments are defined. -/
def checkField (types : Dict Name NamedType) (type : Name) (f : Field) :
    Except SchemaError Unit := do
  checkDefined types f.type.innermostName s!"{type}.{f.name}" f.location
  f.parameters.values.forM fun p =>
    checkDefined types p.type.innermostName s!"{type}.{f.name}({p.name}:)" f.location

/-- The interfaces of a type are defined, and are interfaces. -/
def checkInterfaces (types : Dict Name NamedType) (t : FieldedType) : Except SchemaError Unit :=
  t.interfaceNames.forM fun name =>
    match types.find? name with
    | some (.interface _) => .ok ()
    | some _ => .error (.implementsNonInterface t.name name t.location)
    | none => .error (.undefinedType name t.name t.location)

/-- The members of a union are objects. -/
def checkMembers (types : Dict Name NamedType) (t : UnionType) : Except SchemaError Unit :=
  t.memberNames.forM fun name =>
    match types.find? name with
    | some (.object _) => .ok ()
    | _ => .error (.invalidMember t.name name t.location)

/-- Everything that a type refers to is defined and fits. -/
def checkType (types : Dict Name NamedType) : NamedType → Except SchemaError Unit
  | .enum _ | .scalar _ => .ok ()
  | .inputObject t => t.fields.values.forM (checkField types t.name)
  | .interface t | .object t => do
    checkInterfaces types t
    t.fields.values.forM (checkField types t.name)
  | .union t => checkMembers types t

/-- The root type for a kind of operations: the one that a schema block names, or else the object
type with the usual name, if there is one. -/
def resolveRoot (types : Dict Name NamedType) (kind : OperationKind) (named : Option TypeRef) :
    Except SchemaError (Option TypeRef) :=
  match named with
  | some ref =>
    match types.find? ref.name with
    | some (.object _) => .ok (some ref)
    | some other => .error (.invalidRoot kind ref.name other.kind)
    | none => .error (.undefinedRoot kind ref.name)
  | none =>
    match types.find? kind.defaultRootName with
    | some (.object t) => .ok (some ⟨t.name, t.location⟩)
    | _ => .ok none

/-- The schema that the draft describes. -/
def finish (draft : Draft) : Except SchemaError Schema := do
  let types ← draft.extensions.foldlM applyExtension draft.types
  types.values.forM (checkType types)
  let some query ← resolveRoot types .query draft.query
    | throw .noQueryType
  let mutation ← resolveRoot types .mutation draft.mutation
  let subscription ← resolveRoot types .subscription draft.subscription
  return { mutation, query, subscription, types }

end Draft

/-! ## Loading texts -/

/-- Work on a draft, which stops at the first error. -/
abbrev DraftM := EStateM SchemaError Draft

namespace DraftM

/-- Enters a definition that stands in `file`. -/
def loadDefinition (file : Option SourcePath) (d : Definition) : DraftM Unit := fun draft =>
  match draft.add file d with
  | .ok draft => .ok () draft
  | .error e => .error e draft

/-- Enters definitions that stand in `file`. -/
def loadDefinitions (file : Option SourcePath) (ds : List Definition) : DraftM Unit :=
  ds.forM (loadDefinition file)

/-- The name of a file, or a name for a text that came without one. -/
def nameText (file : Option SourcePath) : DraftM SourcePath :=
  match file with
  | some path => pure path
  | none => modifyGet fun draft =>
    (⟨s!"str://{draft.unnamedTexts}"⟩, { draft with unnamedTexts := draft.unnamedTexts + 1 })

/-- Enters the definitions of a text. -/
def loadText (file : Option SourcePath) (text : String) : DraftM Unit := do
  let path ← nameText file
  match Definition.parse? text with
  | some ds => loadDefinitions (some path) ds
  | none => throw (.parse path)

/-- Finishes the draft. -/
def build : DraftM Schema := fun draft =>
  match draft.finish with
  | .ok schema =>
    .ok schema
      { draft with log := .builtSchema schema.types.size schema.query.name :: draft.log }
  | .error e => .error e draft

end DraftM

end EntityGraph
