import EntityGraph.Proofs.Schema.Finishing

/-!
# The definitions that make a schema

`Grammar.WellFormed` says of definitions alone when they make a schema: names are new and not
reserved, an object type is given each field once by its definition and its extensions together,
and every name that is used is defined and fits. Texts are loaded one after the other and
extensions wait until the end, so nothing of this depends on where a definition stands. Main
statement: `DraftM.exists_buildFrom_iff`, a schema is built exactly from well-formed definitions.
-/

namespace EntityGraph

open Grammar (InputValueDefinition FieldDefinition TypeDefinition TypeBody Definition definedNames
  rootNames)

namespace Grammar

/-- The name inside all lists and marks of a type reference. -/
def TypeExpr.innermost : TypeExpr → Name
  | named name => name
  | list inner | nonNull inner => inner.innermost

/-- The fields of an input object. -/
def TypeBody.inputFields : TypeBody → List InputValueDefinition
  | inputObject fields => fields
  | scalar | object _ _ | interface _ _ | union _ | enum _ => []

/-- The members of a union. -/
def TypeBody.members : TypeBody → List Name
  | union members => members
  | scalar | object _ _ | interface _ _ | enum _ | inputObject _ => []

/-- No later element of the list has the name of `a`. -/
def LastNamed (a : InputValueDefinition) (l : List InputValueDefinition) : Prop :=
  ∃ before after, l = before ++ a :: after ∧ ∀ b ∈ after, b.name ≠ a.name

/-- The names that a definition may refer to: those of defined types and of built-in scalars. -/
def knownNames (ds : List Definition) : List Name := builtInScalarNames ++ definedNames ds

/-- An object type of the name is defined. -/
def DefinesObject (ds : List Definition) (name : Name) : Prop :=
  ∃ d, .type d ∈ ds ∧ d.name = name ∧ d.body.isObject

/-- An interface of the name is defined. -/
def DefinesInterface (ds : List Definition) (name : Name) : Prop :=
  ∃ d, .type d ∈ ds ∧ d.name = name ∧ d.body.isInterface

/-- The names of the fields that a definition adds to the type `name` as its extension. -/
def Definition.extensionFields (name : Name) : Definition → List Name
  | extension d => if d.name = name then d.body.fieldNames else []
  | schema _ | type _ | directive _ => []

/-- The types of a field and of its arguments are defined. Where an argument is given twice, the
last one counts. -/
def FieldDefinition.RefersWithin (ds : List Definition) (f : FieldDefinition) : Prop :=
  f.type.innermost ∈ knownNames ds ∧
    ∀ a, LastNamed a f.arguments → a.type.innermost ∈ knownNames ds

/-- Everything that a definition or an extension refers to is defined and fits. Where an input field
is given twice, the last one counts. -/
structure TypeBody.RefersWithin (ds : List Definition) (body : TypeBody) : Prop where
  fields : ∀ f ∈ body.fields, f.RefersWithin ds
  inputFields : ∀ a, LastNamed a body.inputFields → a.type.innermost ∈ knownNames ds
  interfaces : ∀ name ∈ body.interfaces, DefinesInterface ds name
  members : ∀ name ∈ body.members, DefinesObject ds name

/-- Definitions that make a schema. -/
structure WellFormed (ds : List Definition) : Prop where
  unreserved : ∀ d, .type d ∈ ds → ¬ ['_', '_'] <+: d.name.toList
  distinct : (builtInScalarNames ++ definedNames ds).Nodup
  fields : ∀ d, .type d ∈ ds → (typenameField :: d.body.fieldNames).Nodup
  extensions : ∀ d, .extension d ∈ ds → d.body.isObject ∧ DefinesObject ds d.name
  extended : ∀ d, .type d ∈ ds → d.body.isObject →
    (typenameField :: d.body.fieldNames ++ ds.flatMap (·.extensionFields d.name)).Nodup
  references : ∀ d, .type d ∈ ds ∨ .extension d ∈ ds → d.body.RefersWithin ds
  roots : ∀ kind, (rootNames kind ds).length ≤ 1 ∧ ∀ name ∈ rootNames kind ds, DefinesObject ds name
  query : rootNames .query ds ≠ [] ∨ DefinesObject ds OperationKind.query.defaultRootName

/-- An empty list has no last element of a name. -/
theorem not_lastNamed_nil (a : InputValueDefinition) : ¬ LastNamed a [] := by
  rintro ⟨before, after, hl, -⟩
  simp at hl

/-- What an object type or an extension of one refers to. -/
theorem TypeBody.refersWithin_object_iff {ds : List Definition} {interfaces : List Name}
    {fields : List FieldDefinition} :
    (TypeBody.object interfaces fields).RefersWithin ds ↔
      (∀ name ∈ interfaces, DefinesInterface ds name) ∧ ∀ f ∈ fields, f.RefersWithin ds :=
  ⟨fun h => ⟨h.interfaces, h.fields⟩,
    fun ⟨hi, hf⟩ => ⟨hf, fun a ha => absurd ha (not_lastNamed_nil a), hi, nofun⟩⟩

end Grammar

open Grammar (LastNamed knownNames DefinesObject DefinesInterface WellFormed
  not_lastNamed_nil)

/-! ## What types refer to -/

/-- A declared type has the innermost name of the reference it stands for. -/
@[simp] theorem DeclaredType.innermostName_ofTypeExpr (e : Grammar.TypeExpr) :
    (ofTypeExpr e).innermostName = e.innermost := by
  have h : ∀ nullable, (ofTypeExprWith nullable e).innermostName = e.innermost := by
    induction e with
    | named name => exact fun _ => rfl
    | list inner ih => exact fun _ => ih true
    | nonNull inner ih => exact fun _ => ih false
  exact h true

/-- Values that stand for definitions, in a dictionary by name: those of the last definitions. -/
theorem Dict.mem_values_ofDefinitions {ν : Type} {key : ν → Name} {f : InputValueDefinition → ν}
    (hkey : ∀ a, key (f a) = a.name) {l : List InputValueDefinition} {v : ν} :
    v ∈ (Dict.ofValues key (l.map f)).values ↔ ∃ a, LastNamed a l ∧ f a = v := by
  rw [Dict.mem_values_ofValues]
  constructor
  · rintro ⟨before, after, hl, hafter⟩
    obtain ⟨l₁, l₂, rfl, rfl, h₂⟩ := List.map_eq_append_iff.1 hl
    obtain ⟨a, l₃, rfl, rfl, rfl⟩ := List.map_eq_cons_iff.1 h₂
    refine ⟨a, ⟨l₁, l₃, rfl, fun b hb => ?_⟩, rfl⟩
    simpa [hkey] using hafter (f b) (List.mem_map_of_mem hb)
  · rintro ⟨a, ⟨l₁, l₃, rfl, hafter⟩, rfl⟩
    refine ⟨l₁.map f, l₃.map f, by simp, fun w hw => ?_⟩
    obtain ⟨b, hb, rfl⟩ := List.mem_map.1 hw
    simpa [hkey] using hafter b hb

/-- The types have the names of the definitions, and an object or an interface where one is
defined. -/
structure Mirrors (types : Dict Name NamedType) (ds : List Definition) : Prop where
  known : ∀ name, name ∈ types.keys ↔ name ∈ knownNames ds
  object : ∀ name, HasObject types name ↔ DefinesObject ds name
  interface : ∀ name, HasInterface types name ↔ DefinesInterface ds name

namespace Mirrors

variable {types : Dict Name NamedType} {ds : List Definition} {file : Option SourcePath}

/-- A field resolves exactly if its definition refers to what is defined. -/
theorem field_iff (h : Mirrors types ds) {parent : Name} {d : FieldDefinition} :
    (Field.ofDefinition file parent d).Resolves types ↔ d.RefersWithin ds := by
  have hkey : ∀ a, (Parameter.ofDefinition file a).name = a.name := fun _ => rfl
  simp only [Field.Resolves, FieldDefinition.RefersWithin, Field.ofDefinition,
    DeclaredType.innermostName_ofTypeExpr, h.known, Dict.mem_values_ofDefinitions hkey]
  refine and_congr_right fun _ => ⟨fun hp a ha => ?_, ?_⟩
  · simpa [Parameter.ofDefinition] using hp _ ⟨a, ha, rfl⟩
  · rintro ha _ ⟨a, hlast, rfl⟩
    simpa [Parameter.ofDefinition] using ha a hlast

/-- The field `__typename` resolves. -/
theorem typename_resolves (h : Mirrors types ds) (parent : Name) :
    (Field.typename parent).Resolves types := by
  have hstring : "String" ∈ builtInScalarNames := by decide
  exact ⟨(h.known _).2 (List.mem_append_left _ hstring), nofun⟩

/-- An object or interface with its extensions resolves exactly if its definition and the extensions
refer to what is defined. -/
theorem fielded_iff (h : Mirrors types ds) {d : TypeDefinition} {interfaces : List Name}
    {fields : List FieldDefinition} {es : List ObjectExtension}
    (hf : (typenameField :: fields.map (·.name)).Nodup)
    (he : (typenameField :: fields.map (·.name) ++ es.flatMap (·.fieldNames)).Nodup) :
    ((FieldedType.ofDefinition file d interfaces fields).extendedBy es).Resolves types ↔
      ((∀ name ∈ interfaces, DefinesInterface ds name) ∧ ∀ f ∈ fields, f.RefersWithin ds) ∧
        ∀ e ∈ es, (TypeBody.object e.interfaces e.fields).RefersWithin ds := by
  have hkeys : ((FieldedType.ofDefinition file d interfaces fields).fields.keys ++
      es.flatMap (·.fieldNames)).Nodup := by
    rw [FieldedType.keys_ofDefinition hf]
    exact he
  have hnames : ∀ name,
      name ∈ ((FieldedType.ofDefinition file d interfaces fields).extendedBy es).interfaceNames ↔
        name ∈ interfaces ∨ ∃ e ∈ es, name ∈ e.interfaces := by
    simp [FieldedType.interfaceNames_extendedBy FieldedType.interfaceNames_ofDefinition]
  have hvalues : ∀ f,
      f ∈ ((FieldedType.ofDefinition file d interfaces fields).extendedBy es).fields.values ↔
        f = .typename d.name ∨ (∃ f' ∈ fields, .ofDefinition file d.name f' = f) ∨
          ∃ e ∈ es, ∃ f' ∈ e.fields, .ofDefinition e.file d.name f' = f := by
    have hname : (FieldedType.ofDefinition file d interfaces fields).name = d.name :=
      FieldedType.name_extend ..
    simp [Dict.values, FieldedType.entries_extendedBy hkeys, FieldedType.entries_ofDefinition hf,
      hname]
  simp only [FieldedType.Resolves, TypeBody.refersWithin_object_iff, hnames, hvalues, h.interface]
  constructor
  · rintro ⟨hi, hv⟩
    refine ⟨⟨fun name hm => hi name (.inl hm), fun f hm => ?_⟩, fun e hm => ⟨fun name hn => ?_, ?_⟩⟩
    · exact h.field_iff.1 (hv _ (.inr (.inl ⟨f, hm, rfl⟩)))
    · exact hi name (.inr ⟨e, hm, hn⟩)
    · exact fun f hf => h.field_iff.1 (hv _ (.inr (.inr ⟨e, hm, f, hf, rfl⟩)))
  · rintro ⟨⟨hi, hfields⟩, hext⟩
    refine ⟨fun name hn => ?_, fun f hf => ?_⟩
    · rcases hn with hn | ⟨e, hm, hn⟩
      · exact hi name hn
      · exact (hext e hm).1 name hn
    · rcases hf with rfl | ⟨f, hm, rfl⟩ | ⟨e, he, f, hm, rfl⟩
      · exact h.typename_resolves _
      · exact h.field_iff.2 (hfields f hm)
      · exact h.field_iff.2 ((hext e he).2 f hm)

/-- A type resolves exactly if its definition refers to what is defined. -/
theorem type_iff (h : Mirrors types ds) {d : TypeDefinition}
    (hf : (typenameField :: d.body.fieldNames).Nodup) :
    (NamedType.ofDefinition file d).Resolves types ↔ d.body.RefersWithin ds := by
  obtain ⟨pos, description, name, body⟩ := d
  have hnone {α : Type} {P : α → Prop} : ∀ a ∈ ([] : List α), P a := by simp
  have hfielded : ∀ {d : TypeDefinition} {interfaces : List Name} {fields : List FieldDefinition},
      (typenameField :: fields.map (·.name)).Nodup →
        ((FieldedType.ofDefinition file d interfaces fields).Resolves types ↔
          (TypeBody.object interfaces fields).RefersWithin ds) := by
    intro d interfaces fields hf
    have hkeys : (typenameField :: fields.map (·.name) ++
        ([] : List ObjectExtension).flatMap (·.fieldNames)).Nodup := by
      rwa [List.flatMap_nil, List.append_nil]
    rw [TypeBody.refersWithin_object_iff]
    simpa using h.fielded_iff hf hkeys
  cases body with
  | object interfaces fields => exact hfielded hf
  | interface interfaces fields =>
    exact (hfielded hf).trans ⟨fun hr => ⟨hr.fields, hr.inputFields, hr.interfaces, hr.members⟩,
      fun hr => ⟨hr.fields, hr.inputFields, hr.interfaces, hr.members⟩⟩
  | scalar | enum =>
    exact ⟨fun _ => ⟨hnone, fun a ha => absurd ha (not_lastNamed_nil a), hnone, hnone⟩,
      fun _ => trivial⟩
  | union members =>
    have hmembers : (∀ name ∈ (Dict.ofList (members.map fun m =>
        (m, (⟨m, .inSchema file pos⟩ : TypeRef)))).keys, HasObject types name) ↔
          ∀ name ∈ members, DefinesObject ds name := by
      simp [Dict.mem_keys_ofList, h.object]
    refine hmembers.trans ⟨fun hm => ?_, fun hr => hr.members⟩
    exact ⟨hnone, fun a ha => absurd ha (not_lastNamed_nil a), hnone, hm⟩
  | inputObject fields =>
    have hkey : ∀ a, (Field.ofInputValue file name a).name = a.name := fun _ => rfl
    have hfields :
        (NamedType.ofDefinition file ⟨pos, description, name, .inputObject fields⟩).Resolves types ↔
          ∀ a, LastNamed a fields → a.type.innermost ∈ knownNames ds := by
      simp only [NamedType.ofDefinition, NamedType.Resolves, Dict.mem_values_ofDefinitions hkey,
        ← h.known]
      constructor
      · intro hv a ha
        simpa [Field.ofInputValue] using (hv _ ⟨a, ha, rfl⟩).1
      · rintro ha _ ⟨a, hlast, rfl⟩
        exact ⟨by simpa [Field.ofInputValue] using ha a hlast, hnone⟩
    refine hfields.trans ⟨fun ha => ?_, fun hr => hr.inputFields⟩
    exact ⟨hnone, ha, hnone, hnone⟩

/-- A type with its extensions resolves exactly if its definition and the extensions refer to what
is defined. -/
theorem extended_iff (h : Mirrors types ds) {d : TypeDefinition}
    (hf : (typenameField :: d.body.fieldNames).Nodup) {es : List ObjectExtension}
    (he : Extendable es (some (.ofDefinition file d))) :
    ((NamedType.ofDefinition file d).extendedBy es).Resolves types ↔
      d.body.RefersWithin ds ∧
        ∀ e ∈ es, (TypeBody.object e.interfaces e.fields).RefersWithin ds := by
  by_cases hes : es = []
  · simpa [hes] using h.type_iff hf
  · obtain ⟨t, ht, hnodup⟩ := he hes
    obtain ⟨pos, description, name, body⟩ := d
    cases body with
    | object interfaces fields =>
      cases ht
      have hkeys : (FieldedType.ofDefinition file
          ⟨pos, description, name, .object interfaces fields⟩ interfaces fields).fields.keys =
            typenameField :: fields.map (·.name) := FieldedType.keys_ofDefinition hf
      rw [TypeBody.refersWithin_object_iff]
      exact h.fielded_iff hf (hkeys ▸ hnodup)
    | scalar | interface | union | enum | inputObject => cases ht

end Mirrors

/-! ## What a draft holds -/

/-- A definition stands for an object type exactly if it defines one. -/
theorem NamedType.ofDefinition_object_iff {file : Option SourcePath} {d : TypeDefinition} :
    (∃ t, NamedType.ofDefinition file d = .object t) ↔ d.body.isObject := by
  unfold NamedType.ofDefinition
  cases d.body <;> simp [TypeBody.isObject]

/-- A definition stands for an interface exactly if it defines one. -/
theorem NamedType.ofDefinition_interface_iff {file : Option SourcePath} {d : TypeDefinition} :
    (∃ t, NamedType.ofDefinition file d = .interface t) ↔ d.body.isInterface := by
  unfold NamedType.ofDefinition
  cases d.body <;> simp [TypeBody.isInterface]

namespace Draft

variable {draft : Draft} {ps : List (Option SourcePath × Definition)}

/-- The types of a draft are the built-in scalars and those that definitions stand for. -/
theorem Holds.find?_iff (h : Draft.empty.Holds ps draft) {name : Name} {t : NamedType} :
    draft.types.find? name = some t ↔
      (name ∈ builtInScalarNames ∧ t = .scalar (.builtIn name)) ∨
        ∃ file d, (file, .type d) ∈ ps ∧ d.name = name ∧ NamedType.ofDefinition file d = t := by
  have hempty : Draft.empty.types.entries =
      builtInScalarNames.map fun n => (n, .scalar (.builtIn n)) := rfl
  rw [Dict.find?_eq_some_iff, h.types, hempty, List.mem_append, List.mem_map, List.mem_filterMap]
  refine or_congr ⟨?_, ?_⟩ ⟨?_, ?_⟩
  · rintro ⟨n, hn, he⟩
    cases he
    exact ⟨hn, rfl⟩
  · rintro ⟨hn, rfl⟩
    exact ⟨name, hn, rfl⟩
  · rintro ⟨⟨file, d⟩, hp, he⟩
    obtain ⟨t', ht', he⟩ := Option.map_eq_some_iff.1 he
    cases d with
    | type d =>
      cases ht'
      cases he
      exact ⟨file, t', hp, rfl, rfl⟩
    | schema | extension | directive => cases ht'
  · rintro ⟨file, d, hp, rfl, rfl⟩
    exact ⟨(file, .type d), hp, rfl⟩

/-- The types of a draft have the names of the definitions. -/
theorem Holds.mirrors (h : Draft.empty.Holds ps draft) :
    Mirrors draft.types (ps.map (·.2)) := by
  -- Objects and interfaces are told apart in the same way, by a constructor `c` of types.
  have hkind : ∀ {c : FieldedType → NamedType} {b : TypeBody → Bool} (name : Name),
      (∀ s t, c t ≠ .scalar s) →
      (∀ {file d}, (∃ t, NamedType.ofDefinition file d = c t) ↔ b d.body) →
        ((∃ t, draft.types.find? name = some (c t)) ↔
          ∃ d, .type d ∈ ps.map (·.2) ∧ d.name = name ∧ b d.body) := by
    intro c b name hscalar hbody
    constructor
    · rintro ⟨t, ht⟩
      rcases h.find?_iff.1 ht with ⟨-, hs⟩ | ⟨file, d, hp, hn, hd⟩
      · exact absurd hs (hscalar _ t)
      · exact ⟨d, List.mem_map.2 ⟨_, hp, rfl⟩, hn, hbody.1 ⟨t, hd⟩⟩
    · rintro ⟨d, hd, hn, hb⟩
      obtain ⟨⟨file, _⟩, hp, rfl⟩ := List.mem_map.1 hd
      obtain ⟨t, ht⟩ := hbody.2 hb
      exact ⟨t, h.find?_iff.2 (.inr ⟨file, d, hp, hn, ht⟩)⟩
  refine ⟨fun name => ?_, fun name => ?_, fun name => ?_⟩
  · rw [h.keys, keys_empty, knownNames]
  · exact hkind name (fun _ _ => NamedType.noConfusion) NamedType.ofDefinition_object_iff
  · exact hkind name (fun _ _ => NamedType.noConfusion) NamedType.ofDefinition_interface_iff

/-- Extensions change neither names nor kinds. -/
theorem Extended.mirrors {types types' : Dict Name NamedType} {es : List ObjectExtension}
    {ds : List Definition} (hx : Extended types es types') (h : Mirrors types ds) :
    Mirrors types' ds := by
  refine ⟨fun name => ?_, fun name => ?_, fun name => ?_⟩
  · rw [hx.keys, h.known]
  · rw [← h.object, HasObject, HasObject, hx.find?]
    cases types.find? name with
    | none => simp
    | some t => cases t <;> simp [NamedType.extendedBy]
  · rw [← h.interface, HasInterface, HasInterface, hx.find?]
    cases types.find? name with
    | none => simp
    | some t => cases t <;> simp [NamedType.extendedBy]

/-- The extensions of a draft are those of object types among the definitions. -/
theorem Holds.mem_extensions_iff (h : Draft.empty.Holds ps draft) {e : ObjectExtension} :
    e ∈ draft.extensions ↔ ∃ file d, (file, .extension d) ∈ ps ∧
      Definition.extension? file (.extension d) = some e := by
  rw [h.extensions]
  simp only [Draft.empty, List.nil_append, List.mem_filterMap]
  constructor
  · rintro ⟨⟨file, d⟩, hp, he⟩
    cases d with
    | extension d => exact ⟨file, d, hp, he⟩
    | schema | type | directive => cases he
  · rintro ⟨file, d, hp, he⟩
    exact ⟨(file, .extension d), hp, he⟩

/-- An extension of an object type, and the extension that waits to be applied. -/
theorem extension?_eq_some_iff {file : Option SourcePath} {d : TypeDefinition}
    {e : ObjectExtension} :
    Definition.extension? file (.extension d) = some e ↔
      e.file = file ∧ e.pos = d.pos ∧ e.name = d.name ∧ d.body = .object e.interfaces e.fields := by
  obtain ⟨pos, description, name, body⟩ := d
  obtain ⟨file', pos', name', interfaces', fields'⟩ := e
  cases body <;> simp [Definition.extension?, eq_comm]

/-- The fields that extensions of a type give, in order. -/
theorem Holds.extensionFields (h : Draft.empty.Holds ps draft)
    (hobject : ∀ d, .extension d ∈ ps.map (·.2) → d.body.isObject) (name : Name) :
    (extensionsOf name draft.extensions).flatMap (·.fieldNames) =
      (ps.map (·.2)).flatMap (·.extensionFields name) := by
  rw [h.extensions]
  simp only [Draft.empty, List.nil_append]
  clear h
  induction ps with
  | nil => rfl
  | cons p ps ih =>
    have hrest := ih fun d hd => hobject d (List.mem_cons_of_mem _ hd)
    rw [extensionsOf] at hrest
    obtain ⟨file, d⟩ := p
    cases d with
    | schema | type | directive =>
      simpa [extensionsOf, Definition.extension?, Definition.extensionFields] using hrest
    | extension d =>
      have hbody := hobject d (.head _)
      obtain ⟨pos, description, name', body⟩ := d
      cases body with
      | object interfaces fields =>
        by_cases hn : name' = name <;>
          simpa [extensionsOf, Definition.extension?, Definition.extensionFields, hn,
            ObjectExtension.fieldNames, TypeBody.fieldNames, TypeBody.fields] using hrest
      | scalar | interface | union | enum | inputObject => cases hbody

/-- An object type of a draft has the fields of its definition. -/
theorem Holds.find?_object (h : Draft.empty.Holds ps draft)
    (hf : ∀ d, .type d ∈ ps.map (·.2) → (typenameField :: d.body.fieldNames).Nodup)
    {d : TypeDefinition} (hd : .type d ∈ ps.map (·.2)) (hobject : d.body.isObject) :
    ∃ t, draft.types.find? d.name = some (.object t) ∧
      t.fields.keys = typenameField :: d.body.fieldNames := by
  obtain ⟨⟨file, _⟩, hp, rfl⟩ := List.mem_map.1 hd
  have hfind := h.find?_iff.2 (.inr ⟨file, d, hp, rfl, rfl⟩)
  have hnodup := hf d hd
  obtain ⟨pos, description, name, body⟩ := d
  cases body with
  | object interfaces fields => exact ⟨_, hfind, FieldedType.keys_ofDefinition hnodup⟩
  | scalar | interface | union | enum | inputObject => cases hobject

/-- The extensions of a draft can be applied exactly if they extend object types that are defined,
and all fields of an object type are distinct. -/
theorem Holds.extendable_iff (h : Draft.empty.Holds ps draft)
    (hf : ∀ d, .type d ∈ ps.map (·.2) → (typenameField :: d.body.fieldNames).Nodup)
    (hobject : ∀ d, .extension d ∈ ps.map (·.2) → d.body.isObject) :
    (∀ name, Extendable (extensionsOf name draft.extensions) (draft.types.find? name)) ↔
      (∀ d, .extension d ∈ ps.map (·.2) → DefinesObject (ps.map (·.2)) d.name) ∧
        ∀ d, .type d ∈ ps.map (·.2) → d.body.isObject →
          (typenameField :: d.body.fieldNames ++
            (ps.map (·.2)).flatMap (·.extensionFields d.name)).Nodup := by
  simp only [Extendable, h.extensionFields hobject]
  constructor
  · intro hext
    refine ⟨fun d hd => ?_, fun d hd hb => ?_⟩
    · obtain ⟨⟨file, _⟩, hp, rfl⟩ := List.mem_map.1 hd
      obtain ⟨e, he⟩ : ∃ e, Definition.extension? file (.extension d) = some e := by
        have hb := hobject d hd
        obtain ⟨pos, description, name, body⟩ := d
        cases body with
        | object interfaces fields => exact ⟨_, rfl⟩
        | scalar | interface | union | enum | inputObject => cases hb
      have hmem : e ∈ extensionsOf d.name draft.extensions := by
        rw [extensionsOf, List.mem_filter]
        exact ⟨h.mem_extensions_iff.2 ⟨file, d, hp, he⟩,
          decide_eq_true (extension?_eq_some_iff.1 he).2.2.1⟩
      obtain ⟨t, ht, -⟩ := hext d.name (List.ne_nil_of_mem hmem)
      exact (h.mirrors.object d.name).1 ⟨t, ht⟩
    · obtain ⟨t, ht, hkeys⟩ := h.find?_object hf hd hb
      by_cases hes : extensionsOf d.name draft.extensions = []
      · rw [← h.extensionFields hobject, hes, List.flatMap_nil, List.append_nil]
        exact hf d hd
      · obtain ⟨t', ht', hnodup⟩ := hext d.name hes
        cases ht.symm.trans ht'
        exact hkeys ▸ hnodup
  · rintro ⟨hdefined, hnodup⟩ name hes
    obtain ⟨e, he⟩ := List.exists_mem_of_ne_nil _ hes
    obtain ⟨hmem, hname⟩ := List.mem_filter.1 he
    obtain ⟨file, d, hp, hd⟩ := h.mem_extensions_iff.1 hmem
    have hdname : d.name = name :=
      (extension?_eq_some_iff.1 hd).2.2.1.symm.trans (of_decide_eq_true hname)
    obtain ⟨d', hd', hn, hb⟩ := hdefined d (List.mem_map.2 ⟨_, hp, rfl⟩)
    rw [hdname] at hn
    subst hn
    obtain ⟨t, ht, hkeys⟩ := h.find?_object hf hd' hb
    exact ⟨t, ht, hkeys ▸ hnodup d' hd' hb⟩

/-- After the extensions, every type resolves exactly if all definitions and extensions refer to
what is defined. -/
theorem Holds.resolves_iff (h : Draft.empty.Holds ps draft)
    (hf : ∀ d, .type d ∈ ps.map (·.2) → (typenameField :: d.body.fieldNames).Nodup)
    (hobject : ∀ d, .extension d ∈ ps.map (·.2) → d.body.isObject)
    (hext : ∀ name, Extendable (extensionsOf name draft.extensions) (draft.types.find? name))
    {types : Dict Name NamedType} (hx : Extended draft.types draft.extensions types) :
    (∀ t ∈ types.values, t.Resolves types) ↔
      ∀ d, .type d ∈ ps.map (·.2) ∨ .extension d ∈ ps.map (·.2) →
        d.body.RefersWithin (ps.map (·.2)) := by
  have hm := hx.mirrors h.mirrors
  -- What a definition stands for, and the references of it and its extensions.
  have htype : ∀ {file : Option SourcePath} {d : TypeDefinition}, (file, .type d) ∈ ps →
      draft.types.find? d.name = some (.ofDefinition file d) ∧
        (((NamedType.ofDefinition file d).extendedBy
            (extensionsOf d.name draft.extensions)).Resolves types ↔
          d.body.RefersWithin (ps.map (·.2)) ∧
            ∀ e ∈ extensionsOf d.name draft.extensions,
              (TypeBody.object e.interfaces e.fields).RefersWithin (ps.map (·.2))) := by
    intro file d hp
    have hfind := h.find?_iff.2 (.inr ⟨file, d, hp, rfl, rfl⟩)
    have hmem : .type d ∈ ps.map (·.2) := List.mem_map.2 ⟨_, hp, rfl⟩
    exact ⟨hfind, hm.extended_iff (hf d hmem) (hfind ▸ hext d.name)⟩
  have hvalue : ∀ {file : Option SourcePath} {d : TypeDefinition}, (file, .type d) ∈ ps →
      (NamedType.ofDefinition file d).extendedBy (extensionsOf d.name draft.extensions) ∈
        types.values := by
    intro file d hp
    refine Dict.mem_values_iff.2 ⟨d.name, ?_⟩
    rw [hx.find?, (htype hp).1, Option.map_some]
  constructor
  · rintro hall d (hd | hd)
    · obtain ⟨⟨file, _⟩, hp, rfl⟩ := List.mem_map.1 hd
      exact ((htype hp).2.1 (hall _ (hvalue hp))).1
    · obtain ⟨d', hd', hn, hb⟩ := ((h.extendable_iff hf hobject).1 hext).1 d hd
      obtain ⟨⟨file', _⟩, hp', rfl⟩ := List.mem_map.1 hd'
      obtain ⟨⟨file, _⟩, hp, rfl⟩ := List.mem_map.1 hd
      have hbody := hobject d hd
      obtain ⟨pos, description, name, body⟩ := d
      cases body with
      | object interfaces fields =>
        refine ((htype hp').2.1 (hall _ (hvalue hp'))).2 ⟨file, pos, name, interfaces, fields⟩ ?_
        rw [extensionsOf, List.mem_filter]
        exact ⟨h.mem_extensions_iff.2 ⟨file, _, hp, rfl⟩, decide_eq_true hn.symm⟩
      | scalar | interface | union | enum | inputObject => cases hbody
  · intro hall t ht
    obtain ⟨name, hfind⟩ := Dict.mem_values_iff.1 ht
    rw [hx.find?] at hfind
    obtain ⟨t', ht', rfl⟩ := Option.map_eq_some_iff.1 hfind
    rcases h.find?_iff.1 ht' with ⟨-, rfl⟩ | ⟨file, d, hp, rfl, rfl⟩
    · trivial
    · refine (htype hp).2.2 ⟨hall d (.inl (List.mem_map.2 ⟨_, hp, rfl⟩)), fun e he => ?_⟩
      obtain ⟨hmem, -⟩ := List.mem_filter.1 he
      obtain ⟨file', d', hp', hd'⟩ := h.mem_extensions_iff.1 hmem
      have hbody := (extension?_eq_some_iff.1 hd').2.2.2
      exact hbody ▸ hall d' (.inr (List.mem_map.2 ⟨_, hp', rfl⟩))

/-- The root type that a draft has for a kind of operations is the first one that is named. -/
theorem Holds.root?_name (h : Draft.empty.Holds ps draft) (kind : OperationKind) :
    (draft.root? kind).map (·.name) = (rootNames kind (ps.map (·.2))).head? := by
  have hname : ∀ p : Option SourcePath × Definition,
      (p.2.rootRef? p.1 kind).map (·.name) = p.2.root? kind := by
    rintro ⟨file, d⟩
    cases d <;> simp [Definition.rootRef?, Definition.root?, Function.comp_def]
  rw [h.roots, root?_empty, Option.none_or, ← List.head?_filterMap, ← List.head?_map,
    List.map_filterMap, rootNames, List.filterMap_map]
  simp only [hname, Function.comp_def]

/-- Where at most one root type of a kind is named, the root type of the draft is an object type
exactly if all that are named are. -/
theorem Holds.roots_iff (h : Draft.empty.Holds ps draft) {types : Dict Name NamedType}
    (hm : Mirrors types (ps.map (·.2))) {kind : OperationKind}
    (hone : (rootNames kind (ps.map (·.2))).length ≤ 1) :
    (∀ ref, draft.root? kind = some ref → HasObject types ref.name) ↔
      ∀ name ∈ rootNames kind (ps.map (·.2)), DefinesObject (ps.map (·.2)) name := by
  have hhead := h.root?_name kind
  simp only [hm.object]
  generalize rootNames kind (ps.map (·.2)) = names at hone hhead
  cases names with
  | nil =>
    have hnone : draft.root? kind = none := Option.map_eq_none_iff.1 hhead
    simp [hnone]
  | cons name rest =>
    obtain ⟨ref, href, rfl⟩ := Option.map_eq_some_iff.1 hhead
    have hrest : rest = [] := List.length_eq_zero_iff.1 (by simpa using hone)
    simp [href, hrest]

/-- The draft has a root type for queries exactly if one is named or the usual one is defined. -/
theorem Holds.query_iff (h : Draft.empty.Holds ps draft) {types : Dict Name NamedType}
    (hm : Mirrors types (ps.map (·.2))) :
    ((draft.root? .query).isSome ∨ HasObject types OperationKind.query.defaultRootName) ↔
      (rootNames .query (ps.map (·.2)) ≠ [] ∨
        DefinesObject (ps.map (·.2)) OperationKind.query.defaultRootName) := by
  rw [h.isSome_root?, root?_empty, hm.object]
  simp

/-- A draft can be finished exactly if its definitions are well-formed beyond what loading
checks. -/
theorem Holds.finish_iff (h : Draft.empty.Holds ps draft)
    (hl : Loadable builtInScalarNames (fun _ => False) (ps.map (·.2))) :
    (∃ schema, draft.finish = .ok schema) ↔ WellFormed (ps.map (·.2)) := by
  rw [exists_finish_iff]
  constructor
  · rintro ⟨types, happly, hresolves, hnamed, hq⟩
    have hext := exists_applyAll_iff.1 ⟨types, happly⟩
    have hx := Extended.applyAll happly
    have hm := hx.mirrors h.mirrors
    obtain ⟨hdefined, hextended⟩ := (h.extendable_iff hl.fields hl.extensions).1 hext
    exact {
      unreserved := hl.unreserved
      distinct := hl.distinct
      fields := hl.fields
      extensions := fun d hd => ⟨hl.extensions d hd, hdefined d hd⟩
      extended := hextended
      references := (h.resolves_iff hl.fields hl.extensions hext hx).1 hresolves
      roots := fun kind => ⟨(hl.roots kind).1, (h.roots_iff hm (hl.roots kind).1).1 (hnamed kind)⟩
      query := (h.query_iff hm).1 hq }
  · intro hw
    have hext := (h.extendable_iff hl.fields hl.extensions).2
      ⟨fun d hd => (hw.extensions d hd).2, hw.extended⟩
    obtain ⟨types, happly⟩ := exists_applyAll_iff.2 hext
    have hx := Extended.applyAll happly
    have hm := hx.mirrors h.mirrors
    exact ⟨types, happly, (h.resolves_iff hl.fields hl.extensions hext hx).2 hw.references,
      fun kind => (h.roots_iff hm (hl.roots kind).1).2 (hw.roots kind).2,
      (h.query_iff hm).2 hw.query⟩

end Draft

/-- Well-formed definitions can be loaded. -/
theorem Grammar.WellFormed.loadable {ds : List Definition} (h : WellFormed ds) :
    Loadable builtInScalarNames (fun _ => False) ds :=
  ⟨h.unreserved, h.distinct, h.fields, fun d hd => (h.extensions d hd).1,
    fun kind => ⟨(h.roots kind).1, nofun⟩⟩

/-! ## Loading and building -/

namespace DraftM

/-- Loads definitions, each list from its file, and builds a schema from them. -/
def buildFrom (loads : List (Option SourcePath × List Definition)) : DraftM Schema := do
  loads.forM fun load => loadDefinitions load.1 load.2
  build

/-- The definitions of all loads, each with its file. -/
def placed (loads : List (Option SourcePath × List Definition)) :
    List (Option SourcePath × Definition) :=
  loads.flatMap fun load => load.2.map fun d => (load.1, d)

/-- Loads enter their definitions one after the other. -/
theorem loads_eq_ok_iff {loads : List (Option SourcePath × List Definition)}
    {draft draft' : Draft} :
    (loads.forM fun load => loadDefinitions load.1 load.2) draft = .ok () draft' ↔
      draft.addAll (placed loads) = .ok draft' := by
  induction loads generalizing draft with
  | nil =>
    constructor
    · intro h
      cases h
      rfl
    · intro h
      cases h
      rfl
  | cons load loads ih =>
    have hplaced : placed (load :: loads) = load.2.map (fun d => (load.1, d)) ++ placed loads := rfl
    change (loadDefinitions load.1 load.2 >>= fun _ =>
      loads.forM fun load => loadDefinitions load.1 load.2) draft = _ ↔ _
    rw [EStateM.bind_eq_ok_iff, hplaced, Draft.addAll, List.foldlM_append, Except.bind_eq_ok_iff]
    constructor
    · rintro ⟨_, draft₁, h₁, h₂⟩
      exact ⟨draft₁, Draft.loadDefinitions_eq_ok_iff.1 h₁, ih.1 h₂⟩
    · rintro ⟨draft₁, h₁, h₂⟩
      exact ⟨(), draft₁, Draft.loadDefinitions_eq_ok_iff.2 h₁, ih.2 h₂⟩

/-- A schema is built exactly if the definitions can be entered and the draft can be finished. -/
theorem exists_buildFrom {loads : List (Option SourcePath × List Definition)} :
    (∃ schema draft, buildFrom loads Draft.empty = .ok schema draft) ↔
      ∃ draft, Draft.empty.addAll (placed loads) = .ok draft ∧
        ∃ schema, draft.finish = .ok schema := by
  have hbuild : ∀ {draft : Draft}, (∃ schema draft', build draft = .ok schema draft') ↔
      ∃ schema, draft.finish = .ok schema := by
    intro draft
    unfold build
    cases draft.finish <;> simp
  simp only [buildFrom, EStateM.bind_eq_ok_iff, ← hbuild]
  constructor
  · rintro ⟨schema, draft', _, draft, hadd, hb⟩
    exact ⟨draft, loads_eq_ok_iff.1 hadd, schema, draft', hb⟩
  · rintro ⟨draft, hadd, schema, draft', hb⟩
    exact ⟨schema, draft', (), draft, loads_eq_ok_iff.2 hadd, hb⟩

/-- A schema is built exactly from well-formed definitions. -/
theorem exists_buildFrom_iff (loads : List (Option SourcePath × List Definition)) :
    (∃ schema draft, buildFrom loads Draft.empty = .ok schema draft) ↔
      WellFormed (loads.flatMap (·.2)) := by
  have hds : (placed loads).map (·.2) = loads.flatMap (·.2) := by
    simp [placed, List.map_flatMap, Function.comp_def]
  rw [exists_buildFrom, ← hds]
  constructor
  · rintro ⟨draft, hadd, hfinish⟩
    exact ((Draft.Holds.addAll hadd).finish_iff (Draft.exists_addAll_empty_iff.1 ⟨draft, hadd⟩)).1
      hfinish
  · intro hw
    obtain ⟨draft, hadd⟩ := Draft.exists_addAll_empty_iff.2 hw.loadable
    exact ⟨draft, hadd, ((Draft.Holds.addAll hadd).finish_iff hw.loadable).2 hw⟩

end DraftM

end EntityGraph
