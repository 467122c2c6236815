import EntityGraph.Proofs.Questions.Histories
import EntityGraph.Proofs.Schema.Conversions
import EntityGraph.Proofs.Schema.DefinitionOrder

/-!
# What extensions add

A schema is built from any number of loads, of texts or of definitions that were read before
(`Load`), and all definitions of all loads count together, each with the file that it came from
(`Load.placedAll`). What is written about an object type are its definition and its extensions,
wherever they stand (`parts`). Each adds its fields and its interfaces after those of the parts
before it, each field with all that its definition says (`Field.States`), and nothing else adds any
(`DefinedBy`). Main statement: `DraftM.buildLoads_objects`.
-/

namespace EntityGraph

open Grammar (FieldDefinition TypeDefinition TypeBody Definition definedNames)

/-! ## Loads -/

/-- One load into a draft: definitions that were read before, or a text. -/
inductive Load where
  | definitions (file : Option SourcePath) (ds : List Definition)
  | text (file : Option SourcePath) (content : String)

namespace Load

/-- Enters what is loaded. -/
def enter : Load → DraftM Unit
  | definitions file ds => DraftM.loadDefinitions file ds
  | text file content => DraftM.loadText file content

/-- How many texts without a file name are loaded. -/
def unnamed : Load → UInt16
  | text none _ => 1
  | definitions _ _ | text (some _) _ => 0

/-- The definitions that are loaded, each with its file. A text without a file name is named after
how many of those there were before it, as far as sixteen bits can tell. -/
def placed (before : UInt16) : Load → List (Option SourcePath × Definition)
  | definitions file ds => ds.map fun d => (file, d)
  | text file content =>
    ((Definition.parse? content).getD []).map fun d => (some (file.getD ⟨s!"str://{before}"⟩), d)

/-- The definitions of all loads, each with its file, in order. -/
def placedAll (before : UInt16) : List Load → List (Option SourcePath × Definition)
  | [] => []
  | load :: loads => load.placed before ++ placedAll (before + load.unnamed) loads

end Load

/-- Builds a schema from some loads. -/
def DraftM.buildLoads (loads : List Load) : DraftM Schema := do
  loads.forM Load.enter
  build

namespace Draft

variable {draft draft' : Draft} {file : Option SourcePath}

/-- Naming a root type does not name a text. -/
theorem unnamedTexts_takeRoot {block : Grammar.SchemaBlock} {kind : OperationKind}
    (h : takeRoot file block draft kind = .ok draft') :
    draft'.unnamedTexts = draft.unnamedTexts := by
  unfold takeRoot addRoot at h
  split at h
  · cases h
    rfl
  · split at h
    · cases h
    · cases h
      cases kind <;> rfl

/-- Entering a definition does not name a text. -/
theorem unnamedTexts_add {d : Definition} (h : draft.add file d = .ok draft') :
    draft'.unnamedTexts = draft.unnamedTexts := by
  cases d with
  | schema block =>
    obtain ⟨draft₁, draft₂, hq, hm, hs⟩ := addBlock_ok_iff.1 h
    exact (unnamedTexts_takeRoot hs).trans
      ((unnamedTexts_takeRoot hm).trans (unnamedTexts_takeRoot hq))
  | type d =>
    obtain ⟨-, -, -, rfl⟩ := add_type_eq_ok_iff.1 h
    rfl
  | extension d =>
    obtain ⟨-, rfl⟩ := add_extension_eq_ok_iff.1 h
    rfl
  | directive name =>
    cases h
    rfl

/-- Entering definitions does not name a text. -/
theorem unnamedTexts_addAll {ps : List (Option SourcePath × Definition)}
    (h : draft.addAll ps = .ok draft') : draft'.unnamedTexts = draft.unnamedTexts := by
  induction ps generalizing draft with
  | nil =>
    cases h
    rfl
  | cons p ps ih =>
    obtain ⟨draft₁, h₁, h₂⟩ := Except.foldlM_cons_ok_iff.1 h
    exact (ih h₂).trans (unnamedTexts_add h₁)

/-- A text gets its own name, or one after how many texts had none. -/
theorem nameText_ok {path : SourcePath} (h : DraftM.nameText file draft = .ok path draft') :
    path = file.getD ⟨s!"str://{draft.unnamedTexts}"⟩ ∧
      ∀ content, draft'.unnamedTexts = draft.unnamedTexts + (Load.text file content).unnamed := by
  cases file with
  | some path =>
    cases h
    exact ⟨rfl, fun _ => (UInt16.add_zero _).symm⟩
  | none =>
    cases h
    exact ⟨rfl, fun _ => rfl⟩

section
variable {ps : List (Option SourcePath × Definition)} (h : Draft.empty.Holds ps draft)
  (hl : Loadable builtInScalarNames (fun _ => False) (ps.map (·.2)))
include h hl

/-- A load adds its definitions after those of the loads before it. -/
theorem Holds.enter {load : Load} (hload : load.enter draft = .ok () draft') :
    Draft.empty.Holds (ps ++ load.placed draft.unnamedTexts) draft' ∧
      Loadable builtInScalarNames (fun _ => False)
        ((ps ++ load.placed draft.unnamedTexts).map (·.2)) ∧
      draft'.unnamedTexts = draft.unnamedTexts + load.unnamed := by
  cases load with
  | definitions file ds =>
    obtain ⟨hheld, hl'⟩ := h.load hl hload
    exact ⟨hheld, hl', (unnamedTexts_addAll (loadDefinitions_eq_ok_iff.1 hload)).trans
      (UInt16.add_zero _).symm⟩
  | text file content =>
    obtain ⟨path, draft₁, hname, hrest⟩ := EntityGraph.ok_of_bind hload
    obtain ⟨rfl, hcount⟩ := nameText_ok hname
    cases hp : Definition.parse? content with
    | none =>
      rw [hp] at hrest
      cases hrest
    | some ds =>
      rw [hp] at hrest
      obtain ⟨hheld, hl'⟩ := (h.nameText hname).load hl hrest
      rw [Load.placed, hp]
      exact ⟨hheld, hl',
        (unnamedTexts_addAll (loadDefinitions_eq_ok_iff.1 hrest)).trans (hcount content)⟩

/-- Loads add their definitions one after the other. -/
theorem Holds.enterAll {loads : List Load} (hloads : loads.forM Load.enter draft = .ok () draft') :
    Draft.empty.Holds (ps ++ Load.placedAll draft.unnamedTexts loads) draft' ∧
      Loadable builtInScalarNames (fun _ => False)
        ((ps ++ Load.placedAll draft.unnamedTexts loads).map (·.2)) := by
  induction loads generalizing draft ps with
  | nil =>
    cases hloads
    rw [Load.placedAll, List.append_nil]
    exact ⟨h, hl⟩
  | cons load loads ih =>
    obtain ⟨_, draft₁, hfirst, hrest⟩ := EntityGraph.ok_of_bind hloads
    obtain ⟨hheld, hl₁, hcount⟩ := h.enter hl hfirst
    have hall := ih hheld hl₁ hrest
    rwa [hcount, List.append_assoc] at hall

end

/-- What loading leads to after some loads. -/
theorem Loaded.enterAll (hd : Loaded draft) {loads : List Load}
    (hloads : loads.forM Load.enter draft = .ok () draft') : Loaded draft' := by
  induction loads generalizing draft with
  | nil =>
    cases hloads
    exact hd
  | cons load loads ih =>
    obtain ⟨_, draft₁, hfirst, hrest⟩ := EntityGraph.ok_of_bind hloads
    refine ih ?_ hrest
    cases load with
    | definitions file ds => exact hd.definitions hfirst
    | text file content => exact hd.text hfirst

end Draft

/-! ## The parts of an object type -/

/-- The definitions of object types, each with its file, in order. -/
def objectDefinitions (ps : List (Option SourcePath × Definition)) :
    List (Option SourcePath × TypeDefinition) :=
  ps.filterMap fun
    | (file, .type d) => if d.body.isObject then some (file, d) else none
    | _ => none

/-- The extensions of the type `name`, each with its file, in order. -/
def extensionsIn (name : Name) (ps : List (Option SourcePath × Definition)) :
    List (Option SourcePath × TypeDefinition) :=
  ps.filterMap fun
    | (file, .extension d) => if d.name = name then some (file, d) else none
    | _ => none

/-- What is written about the object type with the definition `q`: this definition, and then the
extensions of the type in order. -/
def parts (ps : List (Option SourcePath × Definition)) (q : Option SourcePath × TypeDefinition) :
    List (Option SourcePath × TypeDefinition) :=
  q :: extensionsIn q.2.name ps

/-- The interfaces that are written about an object type, in order. -/
def interfacesWritten (ps : List (Option SourcePath × Definition))
    (q : Option SourcePath × TypeDefinition) : List Name :=
  (parts ps q).flatMap (·.2.body.interfaces)

/-- The fields that are written about an object type, each with its file, in order. -/
def fieldsWritten (ps : List (Option SourcePath × Definition))
    (q : Option SourcePath × TypeDefinition) : List (Option SourcePath × FieldDefinition) :=
  (parts ps q).flatMap fun part => part.2.body.fields.map (part.1, ·)

/-- The object type `t` has what is written about the type with the definition `q`, and nothing
else: `__typename` and then the fields of all parts, each under its name and with all that its
definition says, in the file of its part, and the interfaces of all parts in the order in which they
occur first. -/
structure DefinedBy (ps : List (Option SourcePath × Definition))
    (q : Option SourcePath × TypeDefinition) (t : FieldedType) : Prop where
  name : t.name = q.2.name
  fields : ∃ fields : List (Name × Field),
    t.fields.entries = (typenameField, .typename q.2.name) :: fields ∧
    List.Forall₂ (fun (file, d) (key, f) => key = d.name ∧ f.States file q.2.name d)
      (fieldsWritten ps q) fields
  interfaces : t.interfaceNames = (interfacesWritten ps q).eraseDups

/-- Membership in the definitions of object types. -/
theorem mem_objectDefinitions_iff {ps : List (Option SourcePath × Definition)}
    {file : Option SourcePath} {d : TypeDefinition} :
    (file, d) ∈ objectDefinitions ps ↔ (file, .type d) ∈ ps ∧ d.body.isObject := by
  rw [objectDefinitions, List.mem_filterMap]
  constructor
  · rintro ⟨⟨file', d'⟩, hp, he⟩
    cases d' with
    | type d' =>
      simp only [Option.ite_none_right_eq_some] at he
      obtain ⟨hobject, he⟩ := he
      cases he
      exact ⟨hp, hobject⟩
    | schema | extension | directive => cases he
  · rintro ⟨hp, hobject⟩
    exact ⟨_, hp, if_pos hobject⟩

/-- The extension of an object type that is written in a file. -/
def ObjectExtension.ofDefinition (q : Option SourcePath × TypeDefinition) : ObjectExtension :=
  ⟨q.1, q.2.pos, q.2.name, q.2.body.interfaces, q.2.body.fields⟩

/-- A definition stands for an object type exactly if it defines one. -/
theorem NamedType.object?_ofDefinition {file : Option SourcePath} {d : TypeDefinition} :
    (NamedType.ofDefinition file d).object? =
      if d.body.isObject then some (.ofDefinition file d d.body.interfaces d.body.fields)
      else none := by
  obtain ⟨pos, description, name, body⟩ := d
  cases body <;> rfl

/-- The object type that a type is. -/
theorem NamedType.object?_eq_some_iff {t : NamedType} {o : FieldedType} :
    t.object? = some o ↔ t = .object o := by
  cases t <;> simp [object?]

/-- Extensions change the object type, if it is one. -/
theorem NamedType.object?_extendedBy {es : List ObjectExtension} {t : NamedType} :
    (t.extendedBy es).object? = t.object?.map (·.extendedBy es) := by
  cases t <;> rfl

namespace Draft

variable {draft : Draft} {ps : List (Option SourcePath × Definition)} {schema : Schema}
  (h : Draft.empty.Holds ps draft)
include h

/-- The extensions that a draft has of a type are those that are written. -/
theorem Holds.extensionsOf_eq (hobject : ∀ d, .extension d ∈ ps.map (·.2) → d.body.isObject)
    (name : Name) :
    extensionsOf name draft.extensions = (extensionsIn name ps).map .ofDefinition := by
  rw [h.extensions]
  simp only [Draft.empty, List.nil_append]
  clear h
  induction ps with
  | nil => rfl
  | cons p ps ih =>
    have hrest := ih fun d hd => hobject d (List.mem_cons_of_mem _ hd)
    rw [extensionsOf, extensionsIn] at hrest
    obtain ⟨file, d⟩ := p
    cases d with
    | schema | type | directive =>
      simpa [extensionsOf, extensionsIn, Definition.extension?] using hrest
    | extension d =>
      have hbody := hobject d (.head _)
      obtain ⟨pos, description, name', body⟩ := d
      cases body with
      | object interfaces fields =>
        by_cases hn : name' = name <;>
          simpa [extensionsOf, extensionsIn, Definition.extension?, hn,
            ObjectExtension.ofDefinition, TypeBody.fields, TypeBody.interfaces] using hrest
      | scalar | interface | union | enum | inputObject => cases hbody

/-- The object types of a finished draft are those that are defined, in order, each with its
extensions. -/
theorem Holds.objects_eq (hf : draft.finish = .ok schema) :
    schema.objects = (objectDefinitions ps).map fun q =>
      (FieldedType.ofDefinition q.1 q.2 q.2.body.interfaces q.2.body.fields).extendedBy
        (extensionsOf q.2.name draft.extensions) := by
  have hx := Extended.applyAll (finish_eq_ok_iff.1 hf).1
  have hscalars : ∀ names : List Name, (names.map fun n =>
      (n, NamedType.scalar (.builtIn n))).filterMap
        (fun e => (e.2.extendedBy (extensionsOf e.1 draft.extensions)).object?) = [] := by
    refine fun names => List.filterMap_eq_nil_iff.2 fun e he => ?_
    obtain ⟨n, -, rfl⟩ := List.mem_map.1 he
    rfl
  have hempty : Draft.empty.types.entries =
      builtInScalarNames.map fun n => (n, .scalar (.builtIn n)) := rfl
  rw [Schema.objects, Dict.values, Dict.entries_eq_map hx.keys hx.find?, h.types, hempty,
    objectDefinitions, List.map_map, List.filterMap_map, List.filterMap_append, List.map_filterMap]
  refine (congrArg (· ++ _) (hscalars _)).trans ?_
  rw [List.nil_append, List.filterMap_filterMap]
  refine List.filterMap_congr fun p _ => ?_
  obtain ⟨file, d⟩ := p
  cases d with
  | type d =>
    simp only [Definition.keyed?, Definition.type?, Option.map_some, Option.bind_some,
      Function.comp_apply, NamedType.object?_extendedBy, NamedType.object?_ofDefinition]
    split <;> rfl
  | schema | extension | directive => rfl

/-- The fields of an object type and those of its extensions are distinct. -/
theorem Holds.nodup_extended (hf : draft.finish = .ok schema) {file : Option SourcePath}
    {d : TypeDefinition} (hd : (file, .type d) ∈ ps) {t : FieldedType}
    (ht : NamedType.ofDefinition file d = .object t) :
    (t.fields.keys ++ (extensionsOf d.name draft.extensions).flatMap (·.fieldNames)).Nodup := by
  by_cases hes : extensionsOf d.name draft.extensions = []
  · rw [hes, List.flatMap_nil, List.append_nil]
    exact t.fields.nodup_keys
  · have hext := exists_applyAll_iff.1 ⟨_, (finish_eq_ok_iff.1 hf).1⟩
    obtain ⟨t', hfind, hnodup⟩ := hext d.name hes
    rw [h.find?_iff.2 (.inr ⟨file, d, hd, rfl, ht⟩)] at hfind
    cases hfind
    exact hnodup

/-- Every object type of a finished draft has what is written about it. -/
theorem Holds.definedBy (hl : Loadable builtInScalarNames (fun _ => False) (ps.map (·.2)))
    (hf : draft.finish = .ok schema) :
    List.Forall₂ (DefinedBy ps) (objectDefinitions ps) schema.objects := by
  rw [h.objects_eq hf, List.forall₂_map_right_iff, List.forall₂_same]
  rintro ⟨file, d⟩ hq
  obtain ⟨hd, hobject⟩ := mem_objectDefinitions_iff.1 hq
  have ht : NamedType.ofDefinition file d =
      .object (.ofDefinition file d d.body.interfaces d.body.fields) := by
    rw [← NamedType.object?_eq_some_iff, NamedType.object?_ofDefinition, if_pos hobject]
  have hnodup := h.nodup_extended hf hd ht
  have hname : (FieldedType.ofDefinition file d d.body.interfaces d.body.fields).name = d.name :=
    FieldedType.name_extend ..
  refine ⟨(FieldedType.name_extendedBy _).trans hname, ?_, ?_⟩
  · have hown : (typenameField :: d.body.fields.map (·.name)).Nodup :=
      hl.fields d (List.mem_map_of_mem hd)
    refine ⟨(fieldsWritten ps (file, d)).map fun (file, f) =>
      (f.name, .ofDefinition file d.name f), ?_,
      List.forall₂_map_right_iff.2 (List.forall₂_same.2 fun _ _ => ⟨rfl, Field.states_iff.2 rfl⟩)⟩
    rw [FieldedType.entries_extendedBy hnodup, FieldedType.entries_ofDefinition hown,
      h.extensionsOf_eq hl.extensions, List.flatMap_map, fieldsWritten, parts, List.flatMap_cons,
      List.map_append, List.map_map, List.map_flatMap, List.cons_append, hname]
    simp only [List.map_map]
    rfl
  · rw [FieldedType.interfaceNames_extendedBy FieldedType.interfaceNames_ofDefinition,
      h.extensionsOf_eq hl.extensions, List.flatMap_map, ← OrderedSet.toList_ofList_eq,
      OrderedSet.ofList, OrderedSet.ofList, interfacesWritten, parts, List.flatMap_cons,
      OrderedSet.insertAll, OrderedSet.insertAll, OrderedSet.insertAll, List.foldl_append]
    rfl

end Draft

/-! ## Schemas and their object types -/

/-- The object types that implement an interface are those that it is written about. -/
theorem DefinedBy.implementers {ps : List (Option SourcePath × Definition)}
    {qs : List (Option SourcePath × TypeDefinition)} {ts : List FieldedType}
    (h : List.Forall₂ (DefinedBy ps) qs ts) (interface : Name) :
    (ts.filter (interface ∈ ·.interfaceNames)).map (·.name) =
      (qs.filter fun q => interface ∈ interfacesWritten ps q).map (·.2.name) := by
  induction h with
  | nil => rfl
  | @cons q t qs ts hq _ ih =>
    have hmem : decide (interface ∈ t.interfaceNames) =
        decide (interface ∈ interfacesWritten ps q) := by
      rw [decide_eq_decide, hq.interfaces, List.mem_eraseDups]
    rw [List.filter_cons, List.filter_cons, hmem]
    split
    · rw [List.map_cons, List.map_cons, ih, hq.name]
    · exact ih

namespace Schema

variable {schema : Schema} {name : Name}

/-- The object types of a schema are found under their names. -/
theorem Coherent.object_iff (hs : schema.Coherent) {t : FieldedType} :
    schema.types.find? name = some (.object t) ↔ t ∈ schema.objects ∧ t.name = name := by
  rw [objects, List.mem_filterMap]
  constructor
  · intro hfind
    exact ⟨⟨_, Dict.mem_values_iff.2 ⟨name, hfind⟩, rfl⟩, hs.named name _ hfind⟩
  · rintro ⟨⟨_, hvalue, hobject⟩, rfl⟩
    obtain ⟨key, hfind⟩ := Dict.mem_values_iff.1 hvalue
    cases NamedType.object?_eq_some_iff.1 hobject
    rwa [← hs.named key _ hfind] at hfind

/-- An interface stands for the object types that implement it. -/
theorem StandsFor.of_interface {names : List Name} {t : FieldedType}
    (h : schema.StandsFor name names) (hfind : schema.types.find? name = some (.interface t)) :
    names = (schema.objects.filter (name ∈ ·.interfaceNames)).map (·.name) := by
  cases h with
  | interface => rfl
  | union hother | object hother => cases hfind.symm.trans hother

end Schema

namespace DraftM

variable {loads : List Load} {schema : Schema} {draft : Draft}

/-- A schema that was built from loads is what a draft of all their definitions is finished to. -/
theorem holds_of_buildLoads (hb : buildLoads loads Draft.empty = .ok schema draft) :
    schema.Built ∧ ∃ draft₁, Draft.empty.Holds (Load.placedAll 0 loads) draft₁ ∧
      Loadable builtInScalarNames (fun _ => False) ((Load.placedAll 0 loads).map (·.2)) ∧
      draft₁.finish = .ok schema := by
  obtain ⟨_, draft₁, hloads, hbuild⟩ := EntityGraph.ok_of_bind hb
  have hempty : Draft.empty.Holds [] Draft.empty := Draft.Holds.addAll rfl
  obtain ⟨hheld, hl⟩ := hempty.enterAll (Draft.exists_addAll_empty_iff.1 ⟨_, rfl⟩) hloads
  refine ⟨⟨draft₁, draft, Draft.Loaded.empty.enterAll hloads, hbuild⟩, draft₁, hheld, hl, ?_⟩
  unfold build at hbuild
  split at hbuild
  · next hf =>
    cases hbuild
    exact hf
  · cases hbuild

/-- Extensions contribute completely and in order. The object types of a schema are those that are
defined, in the order of their definitions. Each has `__typename`, the fields of its definition, and
the fields of its extensions in the order in which they were loaded, wherever that was, and every
field has what is written about it; and it has the interfaces of its definition and of its
extensions, in the order in which they occur first. The possible types of an interface are, in the
order of their definitions, the object types that it is written about in one of their parts. -/
theorem buildLoads_objects (hb : buildLoads loads Draft.empty = .ok schema draft) :
    List.Forall₂ (DefinedBy (Load.placedAll 0 loads))
      (objectDefinitions (Load.placedAll 0 loads)) schema.objects ∧
    (∀ name t, schema.types.find? name = some (.object t) ↔
      t ∈ schema.objects ∧ t.name = name) ∧
    ∀ interface t, schema.types.find? interface = some (.interface t) →
      ∀ s : Lookups schema, ∃ names s', LookupM.possibleTypeNames interface s = .ok names s' ∧
        names.toList = ((objectDefinitions (Load.placedAll 0 loads)).filter fun q =>
          interface ∈ interfacesWritten (Load.placedAll 0 loads) q).map (·.2.name) := by
  obtain ⟨hbuilt, draft₁, hheld, hl, hf⟩ := holds_of_buildLoads hb
  have hobjects := hheld.definedBy hl hf
  have hs := hbuilt.coherent
  refine ⟨hobjects, fun name t => hs.object_iff, fun interface t hfind s => ?_⟩
  obtain ⟨names, hnames⟩ := Schema.composite_iff.1 ⟨_, hfind, rfl⟩
  obtain ⟨s', hanswer⟩ := LookupM.possibleTypeNames_answers hnames s
  refine ⟨names, s', hanswer, ?_⟩
  rw [← DefinedBy.implementers hobjects interface]
  exact (hs.standsFor hnames).of_interface hfind

end DraftM

namespace Scattered

open Sample (type field)

/-- An object type that is extended before it is defined, from another file, and after it is
defined, in a text without a file name. The fields have wrapped types, a description, deprecations
with and without a reason, and arguments of which one is given twice. -/
def loads : List Load := [
  .definitions (some ⟨"more.graphql"⟩)
    [.extension ⟨.start, none, "Leaf", .object ["Node"]
      [{ field "weight" (.list (.nonNull (.named "Int"))) with
        directives := [⟨"deprecated", []⟩] }]⟩],
  .definitions none [
    type "Node" (.interface [] [field "id" (.named "ID")]),
    type "Leaf" (.object [] [field "id" (.named "ID")]),
    type "Query" (.object [] [field "node" (.named "Node")])],
  .text none ("extend type Leaf implements Node \x7b \"How long it is\" " ++
    "size(unit: String = \"cm\", round: [Int!]! = [0, 1], \"The one that counts\" " ++
    "unit: String! = \"m\"): [Float!]! @deprecated(reason: \"too long\") \x7d")]

/-- What can be seen of an argument. -/
structure ArgumentView where
  name : Name
  type : String
  default : Option String
  description : Option String
  place : String
deriving DecidableEq

/-- What can be seen of a field. -/
structure FieldView where
  name : Name
  type : String
  description : Option String
  deprecation : Option String
  place : String
  arguments : List ArgumentView
deriving DecidableEq

/-- Looks at a field and its arguments. -/
def viewField (f : Field) : FieldView :=
  ⟨f.name, f.type.render, f.description, f.deprecation, f.location.render,
    f.parameters.values.map fun p =>
      ⟨p.name, p.type.render, p.default, p.description, p.location.render⟩⟩

/-- Looks at the object types of a schema: their names, their interfaces and their fields. -/
def view (schema : Schema) : List (Name × List Name × List FieldView) :=
  schema.objects.map fun t => (t.name, t.interfaceNames, t.fields.values.map viewField)

/-- What the loads make. -/
def assembled : List (Name × List Name × List FieldView) := [
  ("Leaf", ["Node"], [
    ⟨"__typename", "String!", none, none, "<graphql built-in>", []⟩,
    ⟨"id", "ID", none, none, "1:1", []⟩,
    ⟨"weight", "[Int!]", none, some "No longer supported", "more.graphql:1:1", []⟩,
    ⟨"size", "[Float!]!", some "How long it is", some "too long", "str://0:1:36", [
      ⟨"unit", "String!", some "\"m\"", some "The one that counts", "str://0:1:104"⟩,
      ⟨"round", "[Int!]!", some "[0, 1]", none, "str://0:1:79"⟩]⟩]),
  ("Query", [], [
    ⟨"__typename", "String!", none, none, "<graphql built-in>", []⟩,
    ⟨"node", "Node", none, none, "1:1", []⟩])]

/-- What the loads are built to, if they are. -/
def result? : Option (Schema × Draft) := Sample.returned? (DraftM.buildLoads loads Draft.empty)

/-- The loads make a schema with these object types, and with an interface. -/
theorem result?_view : (result?.map fun (schema, _) =>
    (view schema, ((schema.types.find? "Node").bind (·.interface?)).isSome)) =
      some (assembled, true) := by
  decide +kernel

/-- The first object type has all its parts, each from its own file and each field with all that is
written about it, and it is a possible type of an interface that only its extensions name. -/
theorem leaf_assembled : ∃ schema draft,
    DraftM.buildLoads loads Draft.empty = .ok schema draft ∧
    List.Forall₂ (DefinedBy (Load.placedAll 0 loads))
      (objectDefinitions (Load.placedAll 0 loads)) schema.objects ∧
    view schema = assembled ∧
    ∀ s : Lookups schema, ∃ names s', LookupM.possibleTypeNames "Node" s = .ok names s' ∧
      names.toList = ["Leaf"] := by
  obtain ⟨⟨schema, draft⟩, hresult, hlooks⟩ := Option.map_eq_some_iff.1 result?_view
  obtain ⟨hview, hinterface⟩ := Prod.mk.inj hlooks
  have hb := Sample.returned?_eq_some hresult
  obtain ⟨hobjects, -, hpossible⟩ := DraftM.buildLoads_objects hb
  obtain ⟨node, hnode⟩ := Option.isSome_iff_exists.1 hinterface
  obtain ⟨type, hfind, htype⟩ := Option.bind_eq_some_iff.1 hnode
  cases type with
  | enum | inputObject | object | scalar | union => cases htype
  | interface node =>
  refine ⟨schema, draft, hb, hobjects, hview, fun s => ?_⟩
  obtain ⟨names, s', hnames, hlist⟩ := hpossible "Node" node hfind s
  refine ⟨names, s', hnames, ?_⟩
  -- which object types name the interface can be read off their view
  have hnamed : (schema.objects.filter ("Node" ∈ ·.interfaceNames)).map (·.name) =
      ((view schema).filter ("Node" ∈ ·.2.1)).map (·.1) := by
    rw [view, List.filter_map, List.map_map]
    rfl
  rw [hlist, ← DefinedBy.implementers hobjects "Node", hnamed, hview]
  decide

end Scattered

end EntityGraph
