import EntityGraph.Proofs.Questions.Steady
import EntityGraph.Proofs.Request.Requests
import EntityGraph.Proofs.Schema.Accepted

/-!
# References of a schema that was built

Types refer to each other by name, and what a name leads to is looked up whenever it is needed; a
look-up that fails is in places passed over. In a schema that was built none fails. Every type is a
built-in scalar or a definition with its extensions (`Schema.Built.type_cases`), so its fields know
the type that they belong to, and everything it refers to was checked after the last extension
(`Schema.Built.resolves`). Main statement: `Schema.Built.linked`.
-/

namespace EntityGraph

open Grammar (FieldDefinition TypeDefinition TypeBody Definition)

namespace Schema

/-- A type is found exactly if the schema keeps it. -/
theorem type_eq_ok_iff {schema : Schema} {name : Name} {t : NamedType} :
    schema.type name = .ok t ↔ schema.types.find? name = some t := by
  unfold type
  cases schema.types.find? name <;> simp

/-- No reference of the schema dangles. -/
structure Linked (schema : Schema) : Prop where
  /-- A type is kept under its name. -/
  named : ∀ {name t}, schema.types.find? name = some t → t.name = name
  /-- The first field of an object or interface is `__typename`. -/
  typename : ∀ {name t o}, schema.types.find? name = some t → t.fielded? = some o →
    ∃ f rest, o.fields.entries = ("__typename", f) :: rest ∧ f.type = .named "String" false
  /-- A field is kept under its name and leads back to its type. -/
  fields : ∀ {name t key f}, schema.types.find? name = some t → t.fields.find? key = some f →
    f.name = key ∧ schema.type f.parent.name = .ok t
  /-- The types of fields and arguments are there. -/
  annotations : ∀ {name t f}, schema.types.find? name = some t → f ∈ t.fields.values →
    (∃ t', schema.type f.type.innermostName = .ok t') ∧
      ∀ p ∈ f.parameters.values, ∃ t', schema.type p.type.innermostName = .ok t'
  /-- The interfaces of a type are those that it names, in order, each once. -/
  interfaces : ∀ {name t o}, schema.types.find? name = some t → t.fielded? = some o →
    o.interfaceNames.Nodup ∧
      List.Forall₂ (fun n i => i.name = n ∧ schema.type n = .ok (.interface i)) o.interfaceNames
        (o.resolvedInterfaces schema)
  /-- The members of a union are those that it names, in order, each once. -/
  members : ∀ {name t}, schema.types.find? name = some (.union t) →
    t.memberNames.Nodup ∧
      List.Forall₂ (fun n o => o.name = n ∧ schema.type n = .ok (.object o)) t.memberNames
        (t.resolvedMembers schema)
  /-- The names of possible types are known exactly for composite types. -/
  possibleNames : ∀ (name : Name) (s : Lookups schema),
    (∃ names s', LookupM.possibleTypeNames name s = .ok names s') ↔
      ∃ t, schema.types.find? name = some t ∧ t.isComposite
  /-- So are their definitions. -/
  possibleTypes : ∀ {name t} (s : Lookups schema), schema.types.find? name = some t →
    ((∃ os s', LookupM.possibleTypes t s = .ok os s') ↔ t.isComposite)
  /-- Both agree, and only objects are possible types. -/
  possibleAgree : ∀ {name t names os} {s₁ s₁' s₂ s₂' : Lookups schema},
    schema.types.find? name = some t → LookupM.possibleTypeNames name s₁ = .ok names s₁' →
    LookupM.possibleTypes t s₂ = .ok os s₂' →
      List.Forall₂ (fun n o => o.name = n ∧ schema.type n = .ok (.object o)) names.toList os
  /-- There is a root type for queries. -/
  query : ∃ o, schema.root? .query = some (.object o)
  /-- Root types are objects, and every root type that is named is there. -/
  roots : ∀ {kind ref}, schema.rootRef? kind = some ref → ∃ o, schema.root? kind = some (.object o)

end Schema

/-! ## What every type is -/

/-- Each interface is named once, the fields start with `__typename`, and they are kept under their
names and know the type that they belong to. -/
structure FieldedType.Sound (t : FieldedType) : Prop where
  interfaces : t.interfaceNames.Nodup
  typename : ∃ rest, t.fields.entries = (typenameField, .typename t.name) :: rest
  owned : ∀ e ∈ t.fields.entries, e.2.name = e.1 ∧ e.2.parent.name = t.name

namespace FieldedType

/-- What a definition stands for is sound. -/
theorem Sound.ofDefinition {file : Option SourcePath} {d : TypeDefinition} {interfaces : List Name}
    {fields : List FieldDefinition} (hf : (typenameField :: fields.map (·.name)).Nodup) :
    (FieldedType.ofDefinition file d interfaces fields).Sound := by
  have hname : (FieldedType.ofDefinition file d interfaces fields).name = d.name := name_extend ..
  have hentries : (FieldedType.ofDefinition file d interfaces fields).fields.entries =
      (typenameField, .typename d.name) ::
        fields.map fun f => (f.name, .ofDefinition file d.name f) :=
    entries_ofDefinition hf
  refine ⟨?_, ⟨_, hname ▸ hentries⟩, fun e he => ?_⟩
  · rw [interfaceNames_ofDefinition]
    exact OrderedSet.nodup _
  · rw [hentries, List.mem_cons, List.mem_map] at he
    rcases he with rfl | ⟨f, -, rfl⟩
    · exact ⟨rfl, hname.symm⟩
    · exact ⟨rfl, hname.symm⟩

/-- Extensions of new fields keep a type sound. -/
theorem Sound.extendedBy {t : FieldedType} {es : List ObjectExtension} (h : t.Sound)
    (he : (t.fields.keys ++ es.flatMap (·.fieldNames)).Nodup) : (t.extendedBy es).Sound := by
  have hname : (t.extendedBy es).name = t.name := name_extendedBy es
  have hentries := entries_extendedBy he
  obtain ⟨rest, hrest⟩ := h.typename
  have hnames :
      t.interfaceNames = (⟨t.interfaceNames, h.interfaces⟩ : OrderedSet Name).toList := rfl
  refine ⟨?_, ⟨_, by rw [hentries, hrest, hname, List.cons_append]⟩, fun e hm => ?_⟩
  · rw [interfaceNames_extendedBy hnames]
    exact OrderedSet.nodup _
  · rw [hname]
    rw [hentries, List.mem_append, List.mem_flatMap] at hm
    rcases hm with hm | ⟨e', -, hm⟩
    · exact h.owned e hm
    · obtain ⟨f, -, rfl⟩ := List.mem_map.1 hm
      exact ⟨rfl, rfl⟩

end FieldedType

/-- What can be said of a type without its schema: objects and interfaces are sound, the fields of
an input object are kept under their names and know where they belong, and so are the members of a
union. -/
def NamedType.Sound : NamedType → Prop
  | interface t | object t => t.Sound
  | inputObject t => ∀ e ∈ t.fields.entries, e.2.name = e.1 ∧ e.2.parent.name = t.name
  | union t => ∀ e ∈ t.members.entries, e.2.name = e.1
  | enum _ | scalar _ => True

/-- A definition with its extensions is sound. -/
theorem NamedType.Sound.extendedBy {file : Option SourcePath} {d : TypeDefinition}
    {es : List ObjectExtension} (hf : (typenameField :: d.body.fieldNames).Nodup)
    (he : Extendable es (some (.ofDefinition file d))) :
    ((NamedType.ofDefinition file d).extendedBy es).Sound := by
  obtain ⟨pos, description, name, body⟩ := d
  cases body with
  | scalar | enum => trivial
  | interface interfaces fields => exact FieldedType.Sound.ofDefinition hf
  | object interfaces fields =>
    by_cases hes : es = []
    · subst hes
      exact FieldedType.Sound.ofDefinition hf
    · obtain ⟨t, ht, hnodup⟩ := he hes
      cases ht
      exact (FieldedType.Sound.ofDefinition hf).extendedBy hnodup
  | union members =>
    rintro ⟨key, ref⟩ hm
    have hfind := Dict.find?_eq_some_iff.2 hm
    rw [Dict.find?_ofList] at hfind
    obtain ⟨e, he, rfl⟩ := Option.map_eq_some_iff.1 hfind
    obtain ⟨m, -, rfl⟩ := List.mem_map.1 (List.mem_reverse.1 (List.mem_of_find?_eq_some he))
    have hkey := List.find?_some he
    exact of_decide_eq_true hkey
  | inputObject fields =>
    rintro ⟨key, f⟩ hm
    have hfind := Dict.find?_eq_some_iff.2 hm
    refine ⟨Dict.key_of_find?_ofValues hfind, ?_⟩
    rw [Dict.find?_ofValues] at hfind
    obtain ⟨v, -, rfl⟩ := List.mem_map.1 (List.mem_reverse.1 (List.mem_of_find?_eq_some hfind))
    rfl

namespace Schema.Built

variable {schema : Schema} {name : Name} {t : NamedType}

/-- A schema that was built is what a draft of loadable definitions is finished to. -/
theorem drafted (h : schema.Built) : ∃ (ps : List (Option SourcePath × Definition)) (draft : Draft),
    Draft.empty.Holds ps draft ∧ Loadable builtInScalarNames (fun _ => False) (ps.map (·.2)) ∧
      draft.finish = .ok schema := by
  obtain ⟨draft, draft', hloaded, hb⟩ := h
  obtain ⟨ps, hheld, hl⟩ := hloaded.holds
  refine ⟨ps, draft, hheld, hl, ?_⟩
  unfold DraftM.build at hb
  split at hb
  · next schema' hf =>
    cases hb
    exact hf
  · cases hb

/-- Every type is a built-in scalar, or a definition with its extensions. -/
theorem type_cases (h : schema.Built) (hfind : schema.types.find? name = some t) :
    t = .scalar (.builtIn name) ∨
      ∃ file d es, d.name = name ∧ (typenameField :: d.body.fieldNames).Nodup ∧
        Extendable es (some (.ofDefinition file d)) ∧
        t = (NamedType.ofDefinition file d).extendedBy es := by
  obtain ⟨ps, draft, hheld, hl, hfinish⟩ := h.drafted
  have happly := (Draft.finish_eq_ok_iff.1 hfinish).1
  have hext := Draft.exists_applyAll_iff.1 ⟨_, happly⟩ name
  rw [(Draft.Extended.applyAll happly).find?] at hfind
  obtain ⟨t', ht', rfl⟩ := Option.map_eq_some_iff.1 hfind
  rcases hheld.find?_iff.1 ht' with ⟨-, rfl⟩ | ⟨file, d, hp, rfl, rfl⟩
  · exact .inl rfl
  · exact .inr ⟨file, d, _, rfl, hl.fields d (List.mem_map.2 ⟨_, hp, rfl⟩), ht' ▸ hext, rfl⟩

/-- Every type is sound. -/
theorem sound (h : schema.Built) (hfind : schema.types.find? name = some t) : t.Sound := by
  rcases h.type_cases hfind with rfl | ⟨file, d, es, -, hf, he, rfl⟩
  · trivial
  · exact NamedType.Sound.extendedBy hf he

/-- Everything that a type refers to is there and fits. -/
theorem resolves (h : schema.Built) (hfind : schema.types.find? name = some t) :
    t.Resolves schema.types := by
  obtain ⟨ps, draft, -, -, hfinish⟩ := h.drafted
  exact (Draft.finish_eq_ok_iff.1 hfinish).2.1 t (Dict.mem_values_iff.2 ⟨name, hfind⟩)

/-- A field is kept under its name and knows the type that it belongs to. -/
theorem owns (h : schema.Built) (hfind : schema.types.find? name = some t) {key : Name} {f : Field}
    (hf : t.fields.find? key = some f) : f.name = key ∧ f.parent.name = name := by
  have hsound := h.sound hfind
  have hname := h.coherent.named name t hfind
  have hmem := Dict.find?_eq_some_iff.1 hf
  cases t with
  | interface o | object o => exact hname ▸ hsound.owned _ hmem
  | inputObject o => exact hname ▸ hsound _ hmem
  | enum | scalar | union => cases hf

/-- What the fields of a type refer to is there. -/
theorem field_resolves (h : schema.Built) (hfind : schema.types.find? name = some t) {f : Field}
    (hf : f ∈ t.fields.values) : f.Resolves schema.types := by
  have hresolves := h.resolves hfind
  cases t with
  | interface o | object o => exact hresolves.2 f hf
  | inputObject o => exact hresolves f hf
  | enum | scalar | union => cases hf

/-! ## What names lead to -/

/-- Objects and interfaces are sound. -/
theorem fielded_sound (h : schema.Built) (hfind : schema.types.find? name = some t)
    {o : FieldedType} (ho : t.fielded? = some o) : o.Sound := by
  have hsound := h.sound hfind
  cases t with
  | interface o' | object o' =>
    cases ho
    exact hsound
  | enum | scalar | union | inputObject => cases ho

/-- The type of a key is there. -/
theorem type_of_mem_keys (hkey : name ∈ schema.types.keys) : ∃ t', schema.type name = .ok t' := by
  obtain ⟨t', ht'⟩ := Dict.mem_keys_iff.1 hkey
  exact ⟨t', type_eq_ok_iff.2 ht'⟩

/-- References that all lead somewhere are followed one by one. -/
theorem forall₂_filterMap {α β : Type} {R : α → β → Prop} {f : α → Option β} {l : List α}
    (h : ∀ a ∈ l, ∃ b, f a = some b ∧ R a b) : List.Forall₂ R l (l.filterMap f) := by
  induction l with
  | nil => exact .nil
  | cons a l ih =>
    obtain ⟨b, hb, hr⟩ := h a (.head _)
    rw [List.filterMap_cons_some hb]
    exact .cons hr (ih fun a' ha' => h a' (List.mem_cons_of_mem _ ha'))

/-- The interfaces of a type are those that it names. -/
theorem interfaces (h : schema.Built) (hfind : schema.types.find? name = some t) {o : FieldedType}
    (ho : t.fielded? = some o) :
    List.Forall₂ (fun n i => i.name = n ∧ schema.type n = .ok (.interface i)) o.interfaceNames
      (o.resolvedInterfaces schema) := by
  have hall : ∀ n ∈ o.interfaceNames, HasInterface schema.types n := by
    have hresolves := h.resolves hfind
    cases t with
    | interface o' | object o' =>
      cases ho
      exact hresolves.1
    | enum | scalar | union | inputObject => cases ho
  rw [FieldedType.interfaceNames, List.forall₂_map_left_iff]
  refine forall₂_filterMap fun ref href => ?_
  obtain ⟨i, hi⟩ := hall ref.name (List.mem_map_of_mem href)
  exact ⟨i, by rw [hi]; rfl, h.coherent.named _ _ hi, type_eq_ok_iff.2 hi⟩

/-- The members of a union are those that it names. -/
theorem members (h : schema.Built) {u : UnionType}
    (hfind : schema.types.find? name = some (.union u)) :
    List.Forall₂ (fun n o => o.name = n ∧ schema.type n = .ok (.object o)) u.memberNames
      (u.resolvedMembers schema) := by
  have hnames : u.memberNames = u.members.values.map (·.name) := by
    rw [UnionType.memberNames, Dict.keys, Dict.values, List.map_map]
    exact List.map_congr_left fun e he => (h.sound hfind e he).symm
  rw [hnames, List.forall₂_map_left_iff]
  refine forall₂_filterMap fun ref href => ?_
  obtain ⟨o, ho⟩ := h.resolves hfind ref.name (hnames ▸ List.mem_map_of_mem href)
  exact ⟨o, by rw [ho]; rfl, h.coherent.named _ _ ho, type_eq_ok_iff.2 ho⟩

/-- The definitions of the possible types of a composite type are always found. -/
theorem possibleTypes_answers (h : schema.Built) (hfind : schema.types.find? name = some t)
    {names : OrderedSet Name} (hnames : schema.possibleTypes name = .ok names) :
    ∃ os, LookupM.Answers (LookupM.possibleTypes t : LookupM schema LookupError _) os := by
  have hname := h.coherent.named name t hfind
  refine Exists.elim (LookupM.Answers.mapM fun n hn => ?_) fun os hos =>
    ⟨os, (LookupM.possibleTypeNames_answers (hname ▸ hnames)).bind hos⟩
  obtain ⟨o, ho⟩ := h.coherent.object_of_possible ⟨names, hnames, hn⟩
  exact ⟨o, (LookupM.type_answers ho).bind (.pure o)⟩

/-- The definitions of the possible types are those of their names. -/
theorem possibleTypes_gives (h : schema.Built) (hfind : schema.types.find? name = some t)
    {os : List FieldedType}
    (hos : LookupM.Gives (LookupM.possibleTypes t : LookupM schema LookupError _) os) :
    ∃ names, schema.possibleTypes name = .ok names ∧
      List.Forall₂ (fun n o => o.name = n ∧ schema.type n = .ok (.object o)) names.toList os := by
  have hname := h.coherent.named name t hfind
  obtain ⟨names, hnames, hos⟩ := hos.of_bind
  refine ⟨names, hname ▸ LookupM.possibleTypeNames_gives hnames, ?_⟩
  refine hos.of_mapM.imp fun n o ho => ?_
  obtain ⟨t', ht', ho⟩ := ho.of_bind
  have hfind' := LookupM.type_gives ht'
  cases t' with
  | object o' =>
    cases ho.of_pure
    exact ⟨h.coherent.named _ _ hfind', type_eq_ok_iff.2 hfind'⟩
  | enum | inputObject | interface | scalar | union => exact absurd ho.of_throw id

/-- The definitions of the possible types are found exactly for composite types. -/
theorem exists_possibleTypes_iff (h : schema.Built) (hfind : schema.types.find? name = some t)
    (s : Lookups schema) :
    (∃ os s', LookupM.possibleTypes t s = .ok os s') ↔ t.isComposite = true := by
  constructor
  · rintro ⟨os, s', hs⟩
    obtain ⟨names, hnames, -⟩ := h.possibleTypes_gives hfind ⟨s, s', hs⟩
    obtain ⟨t', ht', hc⟩ := composite_iff.2 ⟨names, hnames⟩
    rw [hfind] at ht'
    exact Option.some.inj ht' ▸ hc
  · intro hc
    obtain ⟨names, hnames⟩ := composite_iff.1 ⟨t, hfind, hc⟩
    obtain ⟨os, hos⟩ := h.possibleTypes_answers hfind hnames
    exact ⟨os, hos s⟩

/-- No reference of a schema that was built dangles. -/
theorem linked (h : schema.Built) : schema.Linked where
  named := h.coherent.named _ _
  typename := by
    intro name t o hfind ho
    obtain ⟨rest, hrest⟩ := (h.fielded_sound hfind ho).typename
    exact ⟨_, rest, hrest, rfl⟩
  fields := by
    intro name t key f hfind hf
    obtain ⟨hkey, hparent⟩ := h.owns hfind hf
    exact ⟨hkey, type_eq_ok_iff.2 (hparent ▸ hfind)⟩
  annotations := by
    intro name t f hfind hf
    obtain ⟨htype, hparameters⟩ := h.field_resolves hfind hf
    exact ⟨type_of_mem_keys htype, fun p hp => type_of_mem_keys (hparameters p hp)⟩
  interfaces hfind ho := ⟨(h.fielded_sound hfind ho).interfaces, h.interfaces hfind ho⟩
  members hfind := ⟨Dict.nodup_keys _, h.members hfind⟩
  possibleNames := by
    intro name s
    refine Iff.trans ?_ composite_iff.symm
    constructor
    · rintro ⟨names, s', hs⟩
      exact ⟨names, LookupM.possibleTypeNames_gives ⟨s, s', hs⟩⟩
    · rintro ⟨names, hnames⟩
      exact ⟨names, LookupM.possibleTypeNames_answers hnames s⟩
  possibleTypes s hfind := h.exists_possibleTypes_iff hfind s
  possibleAgree := by
    intro name t names os s₁ s₁' s₂ s₂' hfind hs₁ hs₂
    obtain ⟨names', hnames', hos⟩ := h.possibleTypes_gives hfind ⟨s₂, s₂', hs₂⟩
    have hnames := LookupM.possibleTypeNames_gives ⟨s₁, s₁', hs₁⟩
    rw [hnames] at hnames'
    cases hnames'
    exact hos
  query := by
    obtain ⟨o, ho⟩ := h.coherent.roots .query schema.query rfl
    exact ⟨o, ho⟩
  roots := by
    intro kind ref href
    obtain ⟨o, ho⟩ := h.coherent.roots kind ref href
    exact ⟨o, by rw [root?, href]; exact ho⟩

end Schema.Built

/-- The sample schema has no dangling reference. -/
theorem Sample.schema_linked : Sample.schema.Built ∧ Sample.schema.Linked :=
  ⟨Sample.built, Schema.Built.linked Sample.built⟩

end EntityGraph
