import EntityGraph.Proofs.Schema.Loading

/-!
# Finishing a draft

A draft is finished in three steps: its extensions are applied, the references of every type are
checked, and the root types are settled. Each step is described by what it accepts and by what it
leaves. Extensions of one type add their fields and interfaces in order, and those of different
types do not meet (`Draft.exists_applyAll_iff`, `Draft.Extended.applyAll`); a type is accepted
exactly if everything it refers to is there (`Draft.checkType_eq_ok_iff`). The steps together are
`Draft.finish_eq_ok_iff`.
-/

namespace EntityGraph

open Grammar (FieldDefinition TypeDefinition TypeBody Definition)

/-! ## Dictionaries made from lists -/

namespace Dict

variable {κ ν : Type} [DecidableEq κ]

/-- Of the values that a list gives to a key the last one stays. -/
theorem find?_insertAll (d : Dict κ ν) (l : List (κ × ν)) (k : κ) :
    (d.insertAll l).find? k = ((l.reverse.find? (·.1 = k)).map (·.2)).or (d.find? k) := by
  induction l generalizing d with
  | nil => rfl
  | cons e l ih =>
    have hstep : (d.insertAll (e :: l)).find? k = ((d.insert e.1 e.2).insertAll l).find? k := rfl
    rw [hstep, ih, find?_insert, List.reverse_cons, List.find?_append, Option.map_or,
      Option.or_assoc]
    by_cases hk : k = e.1
    · simp [hk]
    · simp [hk, Ne.symm hk]

/-- The dictionary of a list has what its last entry of a key says. -/
theorem find?_ofList (l : List (κ × ν)) (k : κ) :
    (ofList l).find? k = (l.reverse.find? (·.1 = k)).map (·.2) := by
  rw [ofList, find?_insertAll, show (empty : Dict κ ν).find? k = none from rfl, Option.or_none]

/-- The keys of the dictionary of a list are those that the list gives. -/
theorem mem_keys_ofList {l : List (κ × ν)} {k : κ} : k ∈ (ofList l).keys ↔ k ∈ l.map (·.1) := by
  rw [← contains_iff, contains, find?_ofList, Option.isSome_map, List.find?_isSome]
  simp

/-- The dictionary of named values has the last value of a name. -/
theorem find?_ofValues (key : ν → κ) (l : List ν) (k : κ) :
    (ofValues key l).find? k = l.reverse.find? (key · = k) := by
  rw [ofValues, find?_ofList, ← List.map_reverse, List.find?_map, Option.map_map]
  simp [Function.comp_def]

/-- Named values are stored under their own names. -/
theorem key_of_find?_ofValues {key : ν → κ} {l : List ν} {k : κ} {v : ν}
    (h : (ofValues key l).find? k = some v) : key v = k := by
  rw [find?_ofValues] at h
  simpa using List.find?_some h

/-- The dictionary of named values holds exactly the last value of each name. -/
theorem mem_values_ofValues {key : ν → κ} {l : List ν} {v : ν} :
    v ∈ (ofValues key l).values ↔
      ∃ before after, l = before ++ v :: after ∧ ∀ w ∈ after, key w ≠ key v := by
  rw [mem_values_iff]
  constructor
  · rintro ⟨k, hk⟩
    cases key_of_find?_ofValues hk
    rw [find?_ofValues, List.find?_eq_some_iff_append] at hk
    obtain ⟨-, after, before, hl, hafter⟩ := hk
    refine ⟨before.reverse, after.reverse, ?_, fun w hw => ?_⟩
    · rw [← List.reverse_reverse l, hl]
      simp
    · simpa using hafter w (List.mem_reverse.1 hw)
  · rintro ⟨before, after, rfl, hafter⟩
    refine ⟨key v, ?_⟩
    rw [find?_ofValues, List.find?_eq_some_iff_append]
    refine ⟨by simp, after.reverse, before.reverse, by simp, fun w hw => ?_⟩
    simpa using hafter w (List.mem_reverse.1 hw)

end Dict

/-! ## Fields and interfaces that are added to a type -/

/-- The names of the fields that an extension gives. -/
def ObjectExtension.fieldNames (e : ObjectExtension) : List Name := e.fields.map (·.name)

namespace FieldedType

variable {file : Option SourcePath} {location : SourceLocation} {t : FieldedType}

/-- Interfaces are added without changing fields. -/
theorem fields_extend {interfaces : List Name} {fields : List FieldDefinition} :
    (t.extend file location interfaces fields).fields =
      (fields.foldl (addField file) t).fields := by
  rw [extend]
  generalize fields.foldl (addField file) t = t'
  induction interfaces generalizing t' with
  | nil => rfl
  | cons i is ih =>
    rw [List.foldl_cons, ih, addInterface]
    split <;> rfl

/-- Fields of new names are added at the end. -/
theorem entries_extend {interfaces : List Name} {fields : List FieldDefinition}
    (h : (t.fields.keys ++ fields.map (·.name)).Nodup) :
    (t.extend file location interfaces fields).fields.entries =
      t.fields.entries ++ fields.map fun d => (d.name, .ofDefinition file t.name d) := by
  rw [fields_extend]
  induction fields generalizing t with
  | nil => simp
  | cons d ds ih =>
    have hnew : d.name ∉ t.fields.keys := fun hm =>
      (List.nodup_append.1 h).2.2 d.name hm d.name (.head _) rfl
    have hadd : t.addField file d =
        { t with fields := t.fields.insert d.name (.ofDefinition file t.name d) } := by
      rw [addField, if_neg (by simpa using hnew)]
    have hkeys : ((t.addField file d).fields.keys ++ ds.map (·.name)).Nodup := by
      rw [hadd, Dict.keys_insert, if_neg hnew, List.append_assoc]
      exact h
    rw [List.foldl_cons, ih hkeys, hadd, Dict.entries_insert _ hnew, List.append_assoc]
    rfl

/-- Interfaces that are not named yet are added at the end. -/
theorem interfaceNames_extend {interfaces : List Name} {fields : List FieldDefinition}
    {s : OrderedSet Name} (h : t.interfaceNames = s.toList) :
    (t.extend file location interfaces fields).interfaceNames =
      (s.insertAll interfaces).toList := by
  have hfields : ∀ t' : FieldedType,
      (fields.foldl (addField file) t').interfaceNames = t'.interfaceNames := by
    induction fields with
    | nil => exact fun _ => rfl
    | cons d ds ih =>
      intro t'
      rw [List.foldl_cons, ih, addField]
      split <;> rfl
  have hstep : ∀ {t' : FieldedType} {s : OrderedSet Name} {name : Name},
      t'.interfaceNames = s.toList →
        (t'.addInterface location name).interfaceNames = (s.insert name).toList := by
    intro t' s name h
    have hmem : t'.implements name = decide (name ∈ s) := by simp [implements, h]
    rw [OrderedSet.toList_insert, addInterface, hmem, ← h]
    by_cases hm : name ∈ s
    · simp [hm]
    · simp [hm, interfaceNames]
  have hall : ∀ {t' : FieldedType} {s : OrderedSet Name}, t'.interfaceNames = s.toList →
      (interfaces.foldl (addInterface location) t').interfaceNames =
        (s.insertAll interfaces).toList := by
    induction interfaces with
    | nil => exact id
    | cons i is ih => exact fun h => ih (hstep h)
  exact hall ((hfields t).trans h)

end FieldedType

/-- Adds what an extension gives to the object type that it extends. -/
def ObjectExtension.apply (e : ObjectExtension) (t : FieldedType) : FieldedType :=
  t.extend e.file e.location e.interfaces e.fields

namespace FieldedType

variable {t : FieldedType}

/-- The type with what extensions give, one after the other. -/
def extendedBy (es : List ObjectExtension) (t : FieldedType) : FieldedType :=
  es.foldl (fun t e => e.apply t) t

/-- Without extensions a type stays as it is. -/
@[simp] theorem extendedBy_nil : t.extendedBy [] = t := rfl

/-- Extensions keep the name of a type. -/
theorem name_extendedBy (es : List ObjectExtension) : (t.extendedBy es).name = t.name := by
  induction es generalizing t with
  | nil => rfl
  | cons e es ih => exact ih.trans (name_extend ..)

/-- The keys of the fields after an extension of new fields. -/
theorem keys_apply {e : ObjectExtension} (h : (t.fields.keys ++ e.fieldNames).Nodup) :
    (e.apply t).fields.keys = t.fields.keys ++ e.fieldNames := by
  rw [Dict.keys, ObjectExtension.apply, entries_extend h, List.map_append, List.map_map]
  rfl

/-- The fields of a type come before those of its extensions, which come in order. -/
theorem entries_extendedBy {es : List ObjectExtension}
    (h : (t.fields.keys ++ es.flatMap (·.fieldNames)).Nodup) :
    (t.extendedBy es).fields.entries =
      t.fields.entries ++
        es.flatMap fun e => e.fields.map fun d => (d.name, .ofDefinition e.file t.name d) := by
  induction es generalizing t with
  | nil => simp [extendedBy]
  | cons e es ih =>
    rw [List.flatMap_cons, ← List.append_assoc] at h
    have hkeys := keys_apply (List.nodup_append.1 h).1
    have hrest : (e.apply t).extendedBy es = t.extendedBy (e :: es) := rfl
    rw [← hrest, ih (hkeys ▸ h), ObjectExtension.apply, entries_extend (List.nodup_append.1 h).1,
      name_extend, List.append_assoc, List.flatMap_cons]

/-- The interfaces of a type come before the new ones of its extensions. -/
theorem interfaceNames_extendedBy {es : List ObjectExtension} {s : OrderedSet Name}
    (h : t.interfaceNames = s.toList) :
    (t.extendedBy es).interfaceNames = (s.insertAll (es.flatMap (·.interfaces))).toList := by
  induction es generalizing t s with
  | nil => exact h
  | cons e es ih =>
    rw [List.flatMap_cons, OrderedSet.insertAll, List.foldl_append]
    exact ih (interfaceNames_extend h)

section
variable {file : Option SourcePath} {d : TypeDefinition} {interfaces : List Name}
  {fields : List FieldDefinition}

/-- The fields of a definition come after `__typename`. -/
theorem entries_ofDefinition (h : (typenameField :: fields.map (·.name)).Nodup) :
    (ofDefinition file d interfaces fields).fields.entries =
      (typenameField, .typename d.name) ::
        fields.map fun f => (f.name, .ofDefinition file d.name f) :=
  entries_extend h

/-- The names of the fields of a definition. -/
theorem keys_ofDefinition (h : (typenameField :: fields.map (·.name)).Nodup) :
    (ofDefinition file d interfaces fields).fields.keys =
      typenameField :: fields.map (·.name) := by
  rw [Dict.keys, entries_ofDefinition h, List.map_cons, List.map_map]
  rfl

/-- The interfaces of a definition, each once. -/
theorem interfaceNames_ofDefinition :
    (ofDefinition file d interfaces fields).interfaceNames =
      (OrderedSet.ofList interfaces).toList :=
  interfaceNames_extend rfl

end

end FieldedType

/-- A type with what extensions of object types give. -/
def NamedType.extendedBy (es : List ObjectExtension) : NamedType → NamedType
  | object t => object (t.extendedBy es)
  | enum t => enum t
  | inputObject t => inputObject t
  | interface t => interface t
  | scalar t => scalar t
  | union t => union t

@[simp] theorem NamedType.extendedBy_nil (t : NamedType) : t.extendedBy [] = t := by
  cases t <;> rfl

/-- The extensions of the type `name`. -/
def extensionsOf (name : Name) (es : List ObjectExtension) : List ObjectExtension :=
  es.filter (·.name = name)

/-- The extensions can be applied to what stands under their name: if there are any, it is an object
type, and all fields are new. -/
def Extendable (es : List ObjectExtension) (type? : Option NamedType) : Prop :=
  es ≠ [] → ∃ t, type? = some (.object t) ∧ (t.fields.keys ++ es.flatMap (·.fieldNames)).Nodup

/-- Extensions can be applied exactly if the first one can, and the others after it. -/
theorem extendable_cons_iff {e : ObjectExtension} {es : List ObjectExtension}
    {type? : Option NamedType} :
    Extendable (e :: es) type? ↔
      ∃ t, type? = some (.object t) ∧ (t.fields.keys ++ e.fieldNames).Nodup ∧
        Extendable es (some (.object (e.apply t))) := by
  constructor
  · intro h
    obtain ⟨t, ht, hnodup⟩ := h (List.cons_ne_nil e es)
    rw [List.flatMap_cons, ← List.append_assoc] at hnodup
    have hfirst := (List.nodup_append.1 hnodup).1
    exact ⟨t, ht, hfirst, fun _ => ⟨e.apply t, rfl, FieldedType.keys_apply hfirst ▸ hnodup⟩⟩
  · rintro ⟨t, ht, hfirst, hrest⟩ -
    refine ⟨t, ht, ?_⟩
    rw [List.flatMap_cons, ← List.append_assoc]
    by_cases hes : es = []
    · simpa [hes] using hfirst
    · obtain ⟨t', ht', hnodup⟩ := hrest hes
      cases ht'
      exact FieldedType.keys_apply hfirst ▸ hnodup

namespace Draft

variable {draft : Draft} {types types' : Dict Name NamedType}

/-! ## Extensions -/

/-- An extension is applied exactly if it gives new fields to an object type. -/
theorem applyExtension_eq_ok_iff {e : ObjectExtension} :
    applyExtension types e = .ok types' ↔
      ∃ t, types.find? e.name = some (.object t) ∧ (t.fields.keys ++ e.fieldNames).Nodup ∧
        types.insert e.name (.object (e.apply t)) = types' := by
  unfold applyExtension
  split
  · next t ht =>
    have hnew : firstRepeated? t.fields.keys e.fields = none ↔
        (t.fields.keys ++ e.fieldNames).Nodup := firstRepeated?_eq_none_iff t.fields.nodup_keys
    split
    · next f hf => simp [ht, ← hnew, hf]
    · next hf => simp [ht, ← hnew, hf, ObjectExtension.apply]
  · next other hother hfind =>
    simp only [hfind, reduceCtorEq, false_iff, not_exists, not_and]
    intro t ht
    exact absurd (Option.some.inj ht) (hother t)
  · next hnone => simp [hnone]

/-- Extensions are applied exactly if those of each type can be. -/
theorem exists_applyAll_iff {es : List ObjectExtension} :
    (∃ types', es.foldlM applyExtension types = .ok types') ↔
      ∀ name, Extendable (extensionsOf name es) (types.find? name) := by
  induction es generalizing types with
  | nil => exact ⟨fun _ _ h => absurd rfl h, fun _ => ⟨types, rfl⟩⟩
  | cons e es ih =>
    have hself : extensionsOf e.name (e :: es) = e :: extensionsOf e.name es := by
      simp [extensionsOf]
    have hother : ∀ {name}, name ≠ e.name → extensionsOf name (e :: es) = extensionsOf name es := by
      intro name hne
      simp [extensionsOf, Ne.symm hne]
    constructor
    · rintro ⟨types', h⟩ name
      obtain ⟨types₁, h₁, h₂⟩ := Except.foldlM_cons_ok_iff.1 h
      obtain ⟨t, ht, hnew, rfl⟩ := applyExtension_eq_ok_iff.1 h₁
      have hrest := ih.1 ⟨types', h₂⟩ name
      rw [Dict.find?_insert] at hrest
      by_cases hn : name = e.name
      · subst hn
        rw [hself, extendable_cons_iff]
        exact ⟨t, ht, hnew, by simpa using hrest⟩
      · rw [hother hn]
        simpa [hn] using hrest
    · intro h
      obtain ⟨t, ht, hnew, hrest⟩ := extendable_cons_iff.1 (hself ▸ h e.name)
      have hall : ∀ name, Extendable (extensionsOf name es)
          ((types.insert e.name (.object (e.apply t))).find? name) := by
        intro name
        rw [Dict.find?_insert]
        by_cases hn : name = e.name
        · simpa [hn] using hrest
        · simpa [hn] using hother hn ▸ h name
      obtain ⟨types', h₂⟩ := ih.2 hall
      exact ⟨types', Except.foldlM_cons_ok_iff.2
        ⟨_, applyExtension_eq_ok_iff.2 ⟨t, ht, hnew, rfl⟩, h₂⟩⟩

/-- The types `types'` are the types `types` with what extensions give. -/
structure Extended (types : Dict Name NamedType) (es : List ObjectExtension)
    (types' : Dict Name NamedType) : Prop where
  keys : types'.keys = types.keys
  find? : ∀ name, types'.find? name =
    (types.find? name).map (·.extendedBy (extensionsOf name es))

/-- What applying extensions leaves. -/
theorem Extended.applyAll {es : List ObjectExtension}
    (h : es.foldlM applyExtension types = .ok types') : Extended types es types' := by
  induction es generalizing types with
  | nil =>
    cases h
    exact ⟨rfl, fun name => by simp [extensionsOf]⟩
  | cons e es ih =>
    obtain ⟨types₁, h₁, h₂⟩ := Except.foldlM_cons_ok_iff.1 h
    obtain ⟨t, ht, hnew, rfl⟩ := applyExtension_eq_ok_iff.1 h₁
    have hrest := ih h₂
    refine ⟨?_, fun name => ?_⟩
    · rw [hrest.keys, Dict.keys_insert, if_pos (Dict.mem_keys_iff.2 ⟨_, ht⟩)]
    · rw [hrest.find?, Dict.find?_insert]
      by_cases hn : name = e.name
      · subst hn
        simp [ht, extensionsOf, NamedType.extendedBy, FieldedType.extendedBy]
      · simp [hn, extensionsOf, Ne.symm hn]

end Draft

/-! ## References -/

/-- The named type is an object type. -/
def HasObject (types : Dict Name NamedType) (name : Name) : Prop :=
  ∃ t, types.find? name = some (.object t)

/-- The named type is an interface. -/
def HasInterface (types : Dict Name NamedType) (name : Name) : Prop :=
  ∃ t, types.find? name = some (.interface t)

/-- The types of a field and of its arguments are there. -/
def Field.Resolves (types : Dict Name NamedType) (f : Field) : Prop :=
  f.type.innermostName ∈ types.keys ∧ ∀ p ∈ f.parameters.values, p.type.innermostName ∈ types.keys

/-- The interfaces of a type are there, and so is what its fields refer to. -/
def FieldedType.Resolves (types : Dict Name NamedType) (t : FieldedType) : Prop :=
  (∀ name ∈ t.interfaceNames, HasInterface types name) ∧ ∀ f ∈ t.fields.values, f.Resolves types

/-- Everything that a type refers to is there and fits. -/
def NamedType.Resolves (types : Dict Name NamedType) : NamedType → Prop
  | enum _ | scalar _ => True
  | inputObject t => ∀ f ∈ t.fields.values, f.Resolves types
  | interface t | object t => t.Resolves types
  | union t => ∀ name ∈ t.memberNames, HasObject types name

namespace Draft

variable {draft : Draft} {types : Dict Name NamedType}

/-- A name is accepted exactly if it is defined. -/
theorem checkDefined_eq_ok_iff {name : Name} {source : String} {location : SourceLocation} :
    checkDefined types name source location = .ok () ↔ name ∈ types.keys := by
  rw [checkDefined, ← Dict.contains_iff]
  split <;> simp [*]

/-- A field is accepted exactly if its type and those of its arguments are there. -/
theorem checkField_eq_ok_iff {type : Name} {f : Field} :
    checkField types type f = .ok () ↔ f.Resolves types := by
  simp only [checkField, Except.unit_bind_eq_ok_iff, checkDefined_eq_ok_iff, Except.forM_eq_ok_iff,
    Field.Resolves]

/-- The interfaces of a type are accepted exactly if they are interfaces. -/
theorem checkInterfaces_eq_ok_iff {t : FieldedType} :
    checkInterfaces types t = .ok () ↔ ∀ name ∈ t.interfaceNames, HasInterface types name := by
  rw [checkInterfaces, Except.forM_eq_ok_iff]
  refine forall₂_congr fun name _ => ?_
  unfold HasInterface
  split
  · next i hi => simp [hi]
  · next other hother hfind => simpa [hfind] using fun t => hother t
  · next hnone => simp [hnone]

/-- The members of a union are accepted exactly if they are objects. -/
theorem checkMembers_eq_ok_iff {t : UnionType} :
    checkMembers types t = .ok () ↔ ∀ name ∈ t.memberNames, HasObject types name := by
  rw [checkMembers, Except.forM_eq_ok_iff]
  refine forall₂_congr fun name _ => ?_
  unfold HasObject
  split
  · next o ho => simp [ho]
  · next hother => simpa using fun t => hother t

/-- A type is accepted exactly if everything it refers to is there and fits. -/
theorem checkType_eq_ok_iff {t : NamedType} : checkType types t = .ok () ↔ t.Resolves types := by
  cases t with
  | enum | scalar => simp [checkType, NamedType.Resolves]
  | inputObject t =>
    simp only [checkType, Except.forM_eq_ok_iff, checkField_eq_ok_iff, NamedType.Resolves]
  | interface t | object t =>
    simp only [checkType, Except.unit_bind_eq_ok_iff, checkInterfaces_eq_ok_iff,
      Except.forM_eq_ok_iff, checkField_eq_ok_iff, NamedType.Resolves, FieldedType.Resolves]
  | union t => exact checkMembers_eq_ok_iff

/-! ## Root types -/

/-- The object type of the usual name for a kind of operations. -/
def defaultRoot? (types : Dict Name NamedType) (kind : OperationKind) : Option TypeRef :=
  ((types.find? kind.defaultRootName).bind (·.object?)).map fun t => ⟨t.name, t.location⟩

/-- A root type is settled exactly if the one that is named is an object type. Without a name it is
the object type of the usual name. -/
theorem resolveRoot_eq_ok_iff {kind : OperationKind} {named ref? : Option TypeRef} :
    resolveRoot types kind named = .ok ref? ↔
      (∀ ref, named = some ref → HasObject types ref.name) ∧
        named.or (defaultRoot? types kind) = ref? := by
  unfold resolveRoot HasObject defaultRoot?
  cases named with
  | some ref =>
    cases h : types.find? ref.name with
    | none => simp [h]
    | some t => cases t <;> simp [h]
  | none =>
    cases types.find? kind.defaultRootName with
    | none => simp
    | some t => cases t <;> simp [NamedType.object?]

/-- There is a root type of the usual name exactly if that is the name of an object type. -/
theorem isSome_defaultRoot? {kind : OperationKind} :
    (defaultRoot? types kind).isSome ↔ HasObject types kind.defaultRootName := by
  unfold defaultRoot? HasObject
  cases types.find? kind.defaultRootName with
  | none => simp
  | some t => cases t <;> simp [NamedType.object?]

/-! ## The whole draft -/

/-- What finishing takes, and what it leaves. -/
theorem finish_eq_ok_iff {schema : Schema} :
    draft.finish = .ok schema ↔
      draft.extensions.foldlM applyExtension draft.types = .ok schema.types ∧
        (∀ t ∈ schema.types.values, t.Resolves schema.types) ∧
        ∀ kind, resolveRoot schema.types kind (draft.root? kind) = .ok (schema.rootRef? kind) := by
  have hkinds : ∀ {P : OperationKind → Prop},
      (∀ kind, P kind) ↔ P .query ∧ P .mutation ∧ P .subscription := by
    intro P
    refine ⟨fun h => ⟨h _, h _, h _⟩, fun ⟨hq, hm, hs⟩ kind => ?_⟩
    cases kind <;> assumption
  constructor
  · intro h
    obtain ⟨types, he, h⟩ := Except.ok_of_bind h
    obtain ⟨_, hc, h⟩ := Except.ok_of_bind h
    obtain ⟨query?, hq, h⟩ := Except.ok_of_bind h
    cases query? with
    | none => cases h
    | some query =>
      obtain ⟨mutation, hm, h⟩ := Except.ok_of_bind h
      obtain ⟨subscription, hs, h⟩ := Except.ok_of_bind h
      cases h
      refine ⟨he, fun t ht => ?_, hkinds.2 ⟨hq, hm, hs⟩⟩
      exact checkType_eq_ok_iff.1 (Except.forM_eq_ok_iff.1 hc t ht)
  · rintro ⟨he, hc, hroots⟩
    obtain ⟨hq, hm, hs⟩ := hkinds.1 hroots
    have hchecked : schema.types.values.forM (checkType schema.types) = .ok () :=
      Except.forM_eq_ok_iff.2 fun t ht => checkType_eq_ok_iff.2 (hc t ht)
    simp only [root?, Schema.rootRef?] at hq hm hs
    simp only [finish, he, hchecked, hq, hm, hs, bind, Except.bind, pure, Except.pure]

/-- A draft can be finished exactly if its extensions can be applied, every type then resolves, the
root types that are named are object types, and there is one for queries. -/
theorem exists_finish_iff :
    (∃ schema, draft.finish = .ok schema) ↔
      ∃ types, draft.extensions.foldlM applyExtension draft.types = .ok types ∧
        (∀ t ∈ types.values, t.Resolves types) ∧
        (∀ kind ref, draft.root? kind = some ref → HasObject types ref.name) ∧
        ((draft.root? .query).isSome ∨ HasObject types OperationKind.query.defaultRootName) := by
  simp only [finish_eq_ok_iff, resolveRoot_eq_ok_iff]
  constructor
  · rintro ⟨schema, he, hc, hroots⟩
    refine ⟨schema.types, he, hc, fun kind => (hroots kind).1, ?_⟩
    have hquery : ((draft.root? .query).or (defaultRoot? schema.types .query)).isSome := by
      rw [(hroots .query).2]
      rfl
    simpa [← isSome_defaultRoot?] using hquery
  · rintro ⟨types, he, hc, hnamed, hquery⟩
    have hsome : ((draft.root? .query).or (defaultRoot? types .query)).isSome := by
      simpa [← isSome_defaultRoot?] using hquery
    obtain ⟨query, hq⟩ := Option.isSome_iff_exists.1 hsome
    refine ⟨⟨(draft.root? .mutation).or (defaultRoot? types .mutation), query,
      (draft.root? .subscription).or (defaultRoot? types .subscription), types⟩, he, hc,
      fun kind => ⟨hnamed kind, ?_⟩⟩
    cases kind with
    | query => exact hq
    | mutation | subscription => rfl

end Draft

end EntityGraph
