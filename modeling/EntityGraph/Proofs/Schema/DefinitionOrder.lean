import EntityGraph.Proofs.Schema.References
import Mathlib.Data.Set.Insert

/-!
# The order of definitions

Definitions, schema blocks and extensions may be loaded in any order and in any number of loads.
Whether they make a schema is said of them without their order (`Grammar.WellFormed.perm`). Where
they do, the draft of one order has the types and root types of the other, and its extensions of
each type are those of the other in another order; since the fields of all extensions are distinct,
a type is extended to the same fields and interfaces (`FieldedType.Alike.extendedBy`). So the
schemas are alike (`Schema.Alike`), and they answer alike about type conditions. Main statement:
`DraftM.buildFrom_perm`.
-/

namespace EntityGraph

open Grammar (FieldDefinition TypeDefinition TypeBody Definition definedNames rootNames knownNames
  DefinesObject DefinesInterface WellFormed)

/-! ## Well-formed definitions in another order -/

namespace Grammar

variable {ds ds' : List Definition}

/-- An object type that is defined stays so among more definitions. -/
theorem DefinesObject.mono {name : Name} (h : DefinesObject ds name) (hsub : ds ⊆ ds') :
    DefinesObject ds' name :=
  h.imp fun _ hd => ⟨hsub hd.1, hd.2⟩

/-- An interface that is defined stays so among more definitions. -/
theorem DefinesInterface.mono {name : Name} (h : DefinesInterface ds name) (hsub : ds ⊆ ds') :
    DefinesInterface ds' name :=
  h.imp fun _ hd => ⟨hsub hd.1, hd.2⟩

/-- The names of the types that are defined, in another order. -/
theorem definedNames_perm (h : ds.Perm ds') : (definedNames ds).Perm (definedNames ds') :=
  (h.filterMap _).map _

/-- What is referred to stays known among more definitions. -/
theorem knownNames_mono (hsub : ds ⊆ ds') : knownNames ds ⊆ knownNames ds' := by
  intro name hn
  rcases List.mem_append.1 hn with hn | hn
  · exact List.mem_append_left _ hn
  · obtain ⟨d, hd, rfl⟩ := List.mem_map.1 hn
    obtain ⟨d', hd', hdd⟩ := List.mem_filterMap.1 hd
    exact List.mem_append_right _ (List.mem_map_of_mem (List.mem_filterMap.2 ⟨d', hsub hd', hdd⟩))

/-- A field refers to what is defined, also among more definitions. -/
theorem FieldDefinition.RefersWithin.mono {f : FieldDefinition} (h : f.RefersWithin ds)
    (hsub : ds ⊆ ds') : f.RefersWithin ds' :=
  ⟨knownNames_mono hsub h.1, fun a ha => knownNames_mono hsub (h.2 a ha)⟩

/-- A definition refers to what is defined, also among more definitions. -/
theorem TypeBody.RefersWithin.mono {body : TypeBody} (h : body.RefersWithin ds)
    (hsub : ds ⊆ ds') : body.RefersWithin ds' where
  fields f hf := (h.fields f hf).mono hsub
  inputFields a ha := knownNames_mono hsub (h.inputFields a ha)
  interfaces name hn := (h.interfaces name hn).mono hsub
  members name hn := (h.members name hn).mono hsub

/-- Definitions are well-formed in any order. -/
theorem WellFormed.perm (h : WellFormed ds) (hp : ds.Perm ds') : WellFormed ds' where
  unreserved d hd := h.unreserved d (hp.mem_iff.2 hd)
  distinct := ((definedNames_perm hp).append_left _).nodup_iff.1 h.distinct
  fields d hd := h.fields d (hp.mem_iff.2 hd)
  extensions d hd :=
    have ⟨hobject, hdefined⟩ := h.extensions d (hp.mem_iff.2 hd)
    ⟨hobject, hdefined.mono hp.subset⟩
  extended d hd hobject :=
    ((hp.flatMap_right _).append_left _).nodup_iff.1 (h.extended d (hp.mem_iff.2 hd) hobject)
  references d hd :=
    (h.references d (hd.imp hp.mem_iff.2 hp.mem_iff.2)).mono hp.subset
  roots kind := by
    have hroots : (rootNames kind ds).Perm (rootNames kind ds') := hp.filterMap _
    obtain ⟨hone, hobject⟩ := h.roots kind
    exact ⟨hroots.length_eq ▸ hone,
      fun name hn => (hobject name (hroots.mem_iff.2 hn)).mono hp.subset⟩
  query := by
    have hroots : (rootNames .query ds).Perm (rootNames .query ds') := hp.filterMap _
    refine h.query.imp (fun hne hnil => hne ?_) fun hdefined => hdefined.mono hp.subset
    exact List.Perm.nil_eq (hnil ▸ hroots.symm) |>.symm

end Grammar

/-! ## Types that are alike -/

/-- The types differ at most in the order of their fields, and in the order and places of their
interfaces. -/
structure FieldedType.Alike (t t' : FieldedType) : Prop where
  name : t.name = t'.name
  location : t.location = t'.location
  description : t.description = t'.description
  fields : ∀ key, t.fields.find? key = t'.fields.find? key
  interfaces : ∀ name, name ∈ t.interfaceNames ↔ name ∈ t'.interfaceNames

/-- The types are equal, but for the order in which an object type was extended. -/
def NamedType.Alike : NamedType → NamedType → Prop
  | .object t, .object t' => t.Alike t'
  | t, t' => t = t'

/-- The schemas have the same types, apart from order, and the same root types. -/
structure Schema.Alike (schema schema' : Schema) : Prop where
  names : ∀ name, name ∈ schema.types.keys ↔ name ∈ schema'.types.keys
  types : ∀ name, Option.Rel NamedType.Alike (schema.types.find? name) (schema'.types.find? name)
  roots : ∀ kind, schema.rootRef? kind = schema'.rootRef? kind

namespace FieldedType

variable {t : FieldedType}

/-- An extension changes fields and interfaces only. -/
theorem extend_rest (file : Option SourcePath) (location : SourceLocation)
    (interfaces : List Name) (fields : List FieldDefinition) (t : FieldedType) :
    (t.extend file location interfaces fields).location = t.location ∧
      (t.extend file location interfaces fields).description = t.description := by
  have hf : ∀ t : FieldedType, (fields.foldl (addField file) t).location = t.location ∧
      (fields.foldl (addField file) t).description = t.description := by
    induction fields with
    | nil => exact fun t => ⟨rfl, rfl⟩
    | cons d ds ih =>
      intro t
      rw [List.foldl_cons, (ih _).1, (ih _).2, addField]
      split <;> exact ⟨rfl, rfl⟩
  have hi : ∀ t : FieldedType, (interfaces.foldl (addInterface location) t).location = t.location ∧
      (interfaces.foldl (addInterface location) t).description = t.description := by
    induction interfaces with
    | nil => exact fun t => ⟨rfl, rfl⟩
    | cons i is ih =>
      intro t
      rw [List.foldl_cons, (ih _).1, (ih _).2, addInterface]
      split <;> exact ⟨rfl, rfl⟩
  rw [extend, (hi _).1, (hi _).2, (hf _).1, (hf _).2]
  exact ⟨rfl, rfl⟩

/-- Extensions change fields and interfaces only. -/
theorem extendedBy_rest (es : List ObjectExtension) (t : FieldedType) :
    (t.extendedBy es).location = t.location ∧
      (t.extendedBy es).description = t.description := by
  induction es generalizing t with
  | nil => exact ⟨rfl, rfl⟩
  | cons e es ih =>
    obtain ⟨hl, hd⟩ := ih (e.apply t)
    obtain ⟨hl', hd'⟩ := extend_rest e.file e.location e.interfaces e.fields t
    exact ⟨hl.trans hl', hd.trans hd'⟩

/-- Extensions of new fields may be applied in any order. -/
theorem Alike.extendedBy {es es' : List ObjectExtension} (hp : es.Perm es')
    (hi : t.interfaceNames.Nodup) (hn : (t.fields.keys ++ es.flatMap (·.fieldNames)).Nodup) :
    (t.extendedBy es).Alike (t.extendedBy es') where
  name := by rw [name_extendedBy, name_extendedBy]
  location := by rw [(extendedBy_rest es t).1, (extendedBy_rest es' t).1]
  description := by rw [(extendedBy_rest es t).2, (extendedBy_rest es' t).2]
  fields key := by
    have hn' : (t.fields.keys ++ es'.flatMap (·.fieldNames)).Nodup :=
      ((hp.flatMap_right _).append_left _).nodup_iff.1 hn
    refine Option.ext fun f => ?_
    rw [Dict.find?_eq_some_iff, Dict.find?_eq_some_iff, entries_extendedBy hn,
      entries_extendedBy hn']
    exact ((hp.flatMap_right _).append_left _).mem_iff
  interfaces name := by
    have hnames : t.interfaceNames = (⟨t.interfaceNames, hi⟩ : OrderedSet Name).toList := rfl
    rw [interfaceNames_extendedBy hnames, interfaceNames_extendedBy hnames, OrderedSet.mem_toList,
      OrderedSet.mem_toList, OrderedSet.mem_insertAll, OrderedSet.mem_insertAll,
      (hp.flatMap_right _).mem_iff]

end FieldedType

/-- A type is like itself. -/
theorem NamedType.Alike.refl (t : NamedType) : t.Alike t := by
  cases t with
  | object t => exact ⟨rfl, rfl, rfl, fun _ => rfl, fun _ => .rfl⟩
  | enum | inputObject | interface | scalar | union => rfl

/-- Types that are alike are two object types, or one type of another kind. -/
theorem NamedType.Alike.objects_or_eq {t t' : NamedType} (h : t.Alike t') :
    (∃ o o', t = .object o ∧ t' = .object o' ∧ o.Alike o') ∨ t' = t ∧ t.object? = none := by
  cases t with
  | object o =>
    cases t' with
    | object o' => exact .inl ⟨o, o', rfl, rfl, h⟩
    | enum | inputObject | interface | scalar | union => cases h
  | enum t | inputObject t | interface t | scalar t | union t => exact .inr ⟨h.symm, rfl⟩

/-- Likeness of types is symmetric. -/
theorem NamedType.Alike.symm {t t' : NamedType} (h : t.Alike t') : t'.Alike t := by
  obtain ⟨o, o', rfl, rfl, ho⟩ | ⟨rfl, -⟩ := h.objects_or_eq
  · exact ⟨ho.name.symm, ho.location.symm, ho.description.symm, fun key => (ho.fields key).symm,
      fun name => (ho.interfaces name).symm⟩
  · exact .refl _

/-- Likeness of schemas is symmetric. -/
theorem Schema.Alike.symm {schema schema' : Schema} (h : schema.Alike schema') :
    schema'.Alike schema where
  names name := (h.names name).symm
  types name := by
    have htype := h.types name
    generalize schema.types.find? name = a, schema'.types.find? name = b at htype ⊢
    cases htype with
    | none => exact .none
    | some halike => exact .some halike.symm
  roots kind := (h.roots kind).symm

/-! ## Drafts in another order -/

/-- A list of at most one element has no other order. -/
theorem eq_of_perm_of_length_le_one {α : Type} {l l' : List α} (h : l.Perm l')
    (hone : l.length ≤ 1) : l = l' := by
  match l with
  | [] => exact h.nil_eq
  | [a] => exact (h.symm.eq_singleton).symm
  | _ :: _ :: _ => simp at hone

namespace Draft

variable {draft draft' : Draft} {ps ps' : List (Option SourcePath × Definition)} {name : Name}

section
variable (h : Draft.empty.Holds ps draft) (h' : Draft.empty.Holds ps' draft') (hp : ps.Perm ps')
include h h' hp

/-- Drafts of the same definitions have the same types. -/
theorem Holds.find?_perm : draft.types.find? name = draft'.types.find? name := by
  refine Option.ext fun t => ?_
  simp only [h.find?_iff, h'.find?_iff, hp.mem_iff]

/-- Drafts of the same definitions have the same extensions of a type, in some order. -/
theorem Holds.extensionsOf_perm :
    (extensionsOf name draft.extensions).Perm (extensionsOf name draft'.extensions) := by
  rw [h.extensions, h'.extensions]
  exact (hp.filterMap _).filter _

/-- Drafts of the same definitions have the same root type of a kind that at most one is named
for. -/
theorem Holds.root?_perm {kind : OperationKind}
    (hone : (rootNames kind (ps.map (·.2))).length ≤ 1) :
    draft.root? kind = draft'.root? kind := by
  have hlength : (ps.filterMap fun p => p.2.rootRef? p.1 kind).length =
      (rootNames kind (ps.map (·.2))).length := by
    have hname : ∀ p : Option SourcePath × Definition,
        (p.2.rootRef? p.1 kind).map (·.name) = p.2.root? kind := by
      rintro ⟨file, d⟩
      cases d <;> simp [Definition.rootRef?, Definition.root?, Function.comp_def]
    rw [← List.length_map (f := (·.name)), List.map_filterMap, rootNames, List.filterMap_map]
    simp only [hname, Function.comp_def]
  have hrefs : (ps.filterMap fun p => p.2.rootRef? p.1 kind) =
      ps'.filterMap fun p => p.2.rootRef? p.1 kind :=
    eq_of_perm_of_length_le_one (hp.filterMap _) (hlength ▸ hone)
  rw [h.roots, h'.roots, ← List.head?_filterMap, ← List.head?_filterMap, hrefs]

end

/-- A type that definitions stand for is sound before it is extended. -/
theorem Holds.sound (h : Draft.empty.Holds ps draft)
    (hl : Loadable builtInScalarNames (fun _ => False) (ps.map (·.2))) {t : NamedType}
    (hfind : draft.types.find? name = some t) : t.Sound := by
  rcases h.find?_iff.1 hfind with ⟨-, rfl⟩ | ⟨file, d, hd, -, rfl⟩
  · trivial
  · have hfields := hl.fields d (List.mem_map.2 ⟨_, hd, rfl⟩)
    have hsound : ((NamedType.ofDefinition file d).extendedBy []).Sound :=
      NamedType.Sound.extendedBy hfields fun hne => absurd rfl hne
    rwa [NamedType.extendedBy_nil] at hsound

/-- A type with its extensions in another order is alike. -/
theorem alike_extendedBy {es es' : List ObjectExtension} {t : NamedType} (hp : es.Perm es')
    (ht : t.Sound) (he : Extendable es (some t)) :
    (t.extendedBy es).Alike (t.extendedBy es') := by
  cases t with
  | object t =>
    by_cases hes : es = []
    · subst hes
      rw [← hp.nil_eq]
      exact .refl _
    · obtain ⟨t', hobject, hn⟩ := he hes
      cases hobject
      exact FieldedType.Alike.extendedBy hp ht.interfaces hn
  | enum | inputObject | interface | scalar | union => rfl

/-- The usual root type of a kind of operations is the same among types that are alike. -/
theorem defaultRoot?_alike {types types' : Dict Name NamedType} {kind : OperationKind}
    (h : Option.Rel NamedType.Alike (types.find? kind.defaultRootName)
      (types'.find? kind.defaultRootName)) :
    defaultRoot? types kind = defaultRoot? types' kind := by
  unfold defaultRoot?
  generalize types.find? kind.defaultRootName = a, types'.find? kind.defaultRootName = b at h ⊢
  cases h with
  | none => rfl
  | some halike =>
    obtain ⟨o, o', rfl, rfl, ho⟩ | ⟨rfl, -⟩ := halike.objects_or_eq
    · simp [NamedType.object?, ho.name, ho.location]
    · rfl

/-- Drafts of the same definitions are finished to schemas that are alike. -/
theorem Holds.finish_alike (h : Draft.empty.Holds ps draft) (h' : Draft.empty.Holds ps' draft')
    (hp : ps.Perm ps') (hl : Loadable builtInScalarNames (fun _ => False) (ps.map (·.2)))
    {schema schema' : Schema} (hf : draft.finish = .ok schema)
    (hf' : draft'.finish = .ok schema') : schema.Alike schema' := by
  obtain ⟨happly, -, hroots⟩ := finish_eq_ok_iff.1 hf
  obtain ⟨happly', -, hroots'⟩ := finish_eq_ok_iff.1 hf'
  have hext := exists_applyAll_iff.1 ⟨_, happly⟩
  have htypes (name : Name) : Option.Rel NamedType.Alike (schema.types.find? name)
      (schema'.types.find? name) := by
    rw [(Extended.applyAll happly).find?, (Extended.applyAll happly').find?,
      ← h.find?_perm h' hp]
    cases hfind : draft.types.find? name with
    | none => exact .none
    | some t =>
      exact .some (alike_extendedBy (h.extensionsOf_perm h' hp) (h.sound hl hfind)
        (hfind ▸ hext name))
  refine ⟨fun name => ?_, htypes, fun kind => ?_⟩
  · have htype := htypes name
    rw [← Dict.contains_iff, ← Dict.contains_iff, Dict.contains, Dict.contains]
    generalize schema.types.find? name = a, schema'.types.find? name = b at htype ⊢
    cases htype <;> simp
  · rw [← (resolveRoot_eq_ok_iff.1 (hroots kind)).2, ← (resolveRoot_eq_ok_iff.1 (hroots' kind)).2,
      h.root?_perm h' hp (hl.roots kind).1, defaultRoot?_alike (htypes _)]

end Draft

/-! ## Answers of schemas that are alike -/

/-- The names in an ordered set, without their order. -/
def OrderedSet.members (names : OrderedSet Name) : Set Name := {name | name ∈ names}

namespace LookupM

variable {schema : Schema}

/-- The answer about possible types is that of the schema. -/
theorem outcome_possibleTypeNames (c : Name) (s : Lookups schema) :
    outcome (possibleTypeNames c s) = schema.possibleTypes c := by
  rcases possibleTypeNames_eq c s with ⟨names, s', hp, hq⟩ | ⟨e, hp, hq⟩
  · rw [hp, hq]
    rfl
  · rw [hp, hq]
    rfl

/-- A question about two lists of possible types gets what the schema says about both. -/
theorem outcome_pair {a b : Name} {f : OrderedSet Name → OrderedSet Name → Bool}
    (s : Lookups schema) :
    outcome ((do
      let x ← possibleTypeNames a
      let y ← possibleTypeNames b
      return f x y : LookupM schema LookupError Bool) s) =
    (do
      let x ← schema.possibleTypes a
      let y ← schema.possibleTypes b
      return f x y) := by
  rcases possibleTypeNames_eq a s with ⟨x, s₁, hp, hq⟩ | ⟨e, hp, hq⟩
  · rw [bind_of_ok hq, hp]
    rcases possibleTypeNames_eq b s₁ with ⟨y, s₂, hp', hq'⟩ | ⟨e, hp', hq'⟩
    · rw [bind_of_ok hq', hp']
      rfl
    · rw [bind_of_error hq', hp']
      rfl
  · rw [bind_of_error hq, hp]
    rfl

end LookupM

namespace Schema.Alike

variable {schema schema' : Schema}

/-- An object type has one that is alike in the other schema. -/
theorem object (h : schema.Alike schema') {object : FieldedType} (ho : object ∈ schema.objects) :
    ∃ object' ∈ schema'.objects, object.Alike object' := by
  obtain ⟨type, htype, hobject⟩ := List.mem_filterMap.1 ho
  obtain ⟨name, hfind⟩ := Dict.mem_values_iff.1 htype
  have hrel := h.types name
  rw [hfind] at hrel
  generalize hfind' : schema'.types.find? name = b at hrel
  cases hrel with
  | some halike =>
    obtain ⟨o, o', rfl, rfl, ho⟩ | ⟨rfl, hnone⟩ := halike.objects_or_eq
    · cases hobject
      exact ⟨o', List.mem_filterMap.2 ⟨_, Dict.mem_values_iff.2 ⟨name, hfind'⟩, rfl⟩, ho⟩
    · rw [hnone] at hobject
      cases hobject

/-- Some object of the one schema implements an interface under a name if one of the other does. -/
theorem implements_of (h : schema.Alike schema') {interface o : Name}
    (ho : ∃ object ∈ schema.objects, object.implements interface ∧ object.name = o) :
    ∃ object ∈ schema'.objects, object.implements interface ∧ object.name = o := by
  obtain ⟨object, hm, himplements, hname⟩ := ho
  obtain ⟨object', hm', halike⟩ := h.object hm
  refine ⟨object', hm', ?_, halike.name ▸ hname⟩
  have hiff := halike.interfaces interface
  simp only [FieldedType.implements, decide_eq_true_eq] at himplements ⊢
  exact hiff.1 himplements

/-- The possible types of a name are the same, or it has none for the same reason. -/
theorem possibleTypes (h : schema.Alike schema') (c : Name) :
    (schema.possibleTypes c).map OrderedSet.members =
      (schema'.possibleTypes c).map OrderedSet.members := by
  have htype := h.types c
  unfold Schema.possibleTypes Schema.type
  generalize schema.types.find? c = a, schema'.types.find? c = b at htype ⊢
  cases htype with
  | none => rfl
  | @some _ t' halike =>
    obtain ⟨o, o', rfl, rfl, -⟩ | ⟨rfl, -⟩ := halike.objects_or_eq
    · rfl
    cases t' with
    | interface t =>
      have hset : OrderedSet.members (.ofList ((schema.objects.filter (·.implements t.name)).map
            (·.name))) =
          OrderedSet.members (.ofList ((schema'.objects.filter (·.implements t.name)).map
            (·.name))) := by
        ext o
        simp only [OrderedSet.members, Set.mem_ofPred_eq, OrderedSet.mem_ofList, List.mem_map,
          List.mem_filter, and_assoc]
        exact ⟨h.implements_of, h.symm.implements_of⟩
      exact congrArg Except.ok hset
    | object | union | enum | inputObject | scalar => rfl

/-- The answer about possible types. -/
theorem possibleTypeNames (h : schema.Alike schema') (c : Name) (s : Lookups schema)
    (s' : Lookups schema') :
    (outcome (LookupM.possibleTypeNames c s)).map OrderedSet.members =
      (outcome (LookupM.possibleTypeNames c s')).map OrderedSet.members := by
  rw [LookupM.outcome_possibleTypeNames, LookupM.outcome_possibleTypeNames, h.possibleTypes]

/-- Answers that are computed from two sets of possible types are the same if the sets are. -/
theorem pair (h : schema.Alike schema') {f : OrderedSet Name → OrderedSet Name → Bool}
    (hf : ∀ {x x' y y' : OrderedSet Name}, (∀ o, o ∈ x ↔ o ∈ x') → (∀ o, o ∈ y ↔ o ∈ y') →
      f x y = f x' y') (a b : Name) :
    (do
      let x ← schema.possibleTypes a
      let y ← schema.possibleTypes b
      return f x y) =
    (do
      let x ← schema'.possibleTypes a
      let y ← schema'.possibleTypes b
      return f x y : Except LookupError Bool) := by
  have ha := h.possibleTypes a
  have hb := h.possibleTypes b
  generalize schema.possibleTypes a = r, schema'.possibleTypes a = r' at ha ⊢
  generalize schema.possibleTypes b = q, schema'.possibleTypes b = q' at hb ⊢
  match r, r', ha with
  | .error e, .error _, rfl => rfl
  | .ok x, .ok x', ha =>
    match q, q', hb with
    | .error e, .error _, rfl => rfl
    | .ok y, .ok y', hb =>
      have hx : ∀ o, o ∈ x ↔ o ∈ x' := Set.ext_iff.1 (Except.ok.inj ha)
      have hy : ∀ o, o ∈ y ↔ o ∈ y' := Set.ext_iff.1 (Except.ok.inj hb)
      exact congrArg Except.ok (hf hx hy)

/-- The answer about overlap. -/
theorem overlap (h : schema.Alike schema') (a b : Name) (s : Lookups schema)
    (s' : Lookups schema') :
    outcome (LookupM.overlap a b s) = outcome (LookupM.overlap a b s') := by
  unfold LookupM.overlap
  split
  · rfl
  · rw [LookupM.outcome_pair, LookupM.outcome_pair]
    refine h.pair (fun hx hy => ?_) a b
    rw [Bool.eq_iff_iff]
    simp [hx, hy]

/-- The answer about containment. -/
theorem within (h : schema.Alike schema') (a b : Name) (s : Lookups schema)
    (s' : Lookups schema') :
    outcome (LookupM.within a b s) = outcome (LookupM.within a b s') := by
  unfold LookupM.within
  split
  · rfl
  · rw [LookupM.outcome_pair, LookupM.outcome_pair]
    refine h.pair (fun hx hy => ?_) a b
    rw [Bool.eq_iff_iff]
    simp [hx, hy]

end Schema.Alike

/-! ## Loads in another order -/

namespace DraftM

variable {loads loads' : List (Option SourcePath × List Definition)}

/-- A schema that was built is what a draft of the loaded definitions is finished to. -/
theorem holds_of_buildFrom {schema : Schema} {draft : Draft}
    (h : buildFrom loads Draft.empty = .ok schema draft) :
    ∃ draft₁, Draft.empty.Holds (placed loads) draft₁ ∧
      Loadable builtInScalarNames (fun _ => False) ((placed loads).map (·.2)) ∧
      draft₁.finish = .ok schema := by
  obtain ⟨_, draft₁, hloads, hbuild⟩ := EStateM.bind_eq_ok_iff.1 h
  have hadd := loads_eq_ok_iff.1 hloads
  refine ⟨draft₁, .addAll hadd, Draft.exists_addAll_empty_iff.1 ⟨_, hadd⟩, ?_⟩
  unfold build at hbuild
  split at hbuild
  · next hf =>
    cases hbuild
    exact hf
  · cases hbuild

/-- Definitions that make a schema do so in any order. -/
theorem exists_buildFrom_of_perm (hp : (placed loads).Perm (placed loads'))
    (h : ∃ schema draft, buildFrom loads Draft.empty = .ok schema draft) :
    ∃ schema draft, buildFrom loads' Draft.empty = .ok schema draft := by
  obtain ⟨schema, draft, h⟩ := h
  obtain ⟨draft₁, hheld, hl, hf⟩ := holds_of_buildFrom h
  have hwell : WellFormed ((placed loads').map (·.2)) :=
    ((hheld.finish_iff hl).1 ⟨schema, hf⟩).perm (hp.map _)
  obtain ⟨draft', hadd⟩ := Draft.exists_addAll_empty_iff.2 hwell.loadable
  exact exists_buildFrom.2
    ⟨draft', hadd, ((Draft.Holds.addAll hadd).finish_iff hwell.loadable).2 hwell⟩

/-- The meaning of definitions does not depend on their order, nor on the loads that they come in.
They make a schema in one order exactly if they do in another one. The two schemas then have types
of the same names, and the same root types, with their places; the types of a name are equal, but
that object types may have their fields and interfaces in another order. So whatever was asked
before, the questions about type conditions get the same answers. -/
theorem buildFrom_perm (hp : (placed loads).Perm (placed loads')) :
    ((∃ schema draft, buildFrom loads Draft.empty = .ok schema draft) ↔
      ∃ schema draft, buildFrom loads' Draft.empty = .ok schema draft) ∧
    ∀ (schema schema' : Schema) (draft draft' : Draft),
      buildFrom loads Draft.empty = .ok schema draft →
      buildFrom loads' Draft.empty = .ok schema' draft' →
      schema.Alike schema' ∧
      ∀ (s : Lookups schema) (s' : Lookups schema'),
        (∀ c, (outcome (LookupM.possibleTypeNames c s)).map OrderedSet.members =
          (outcome (LookupM.possibleTypeNames c s')).map OrderedSet.members) ∧
        (∀ a b, outcome (LookupM.overlap a b s) = outcome (LookupM.overlap a b s')) ∧
        ∀ a b, outcome (LookupM.within a b s) = outcome (LookupM.within a b s') := by
  refine ⟨⟨exists_buildFrom_of_perm hp, exists_buildFrom_of_perm hp.symm⟩, ?_⟩
  intro schema schema' draft draft' h h'
  obtain ⟨draft₁, hheld, hl, hf⟩ := holds_of_buildFrom h
  obtain ⟨draft₁', hheld', -, hf'⟩ := holds_of_buildFrom h'
  have halike : schema.Alike schema' := hheld.finish_alike hheld' hp hl hf hf'
  exact ⟨halike, fun s s' => ⟨fun c => halike.possibleTypeNames c s s',
    fun a b => halike.overlap a b s s', fun a b => halike.within a b s s'⟩⟩

end DraftM

namespace Sample

/-- An extension of an object type. -/
def furtherLeaf : Definition :=
  .extension ⟨.start, none, "Leaf", .object [] [field "weight" (.named "Int")]⟩

/-- The definitions with the extension at the end, in one load. -/
def inOrder : List (Option SourcePath × List Definition) := [(none, definitions ++ [furtherLeaf])]

/-- The same definitions backwards, each in a load of its own. -/
def backwards : List (Option SourcePath × List Definition) :=
  (definitions ++ [furtherLeaf]).reverse.map fun d => (none, [d])

/-- An extension may come before the type that it extends. -/
theorem backwards_alike : (DraftM.placed inOrder).Perm (DraftM.placed backwards) ∧
    ∃ schema schema' draft draft', DraftM.buildFrom inOrder Draft.empty = .ok schema draft ∧
      DraftM.buildFrom backwards Draft.empty = .ok schema' draft' ∧ schema.Alike schema' := by
  have hp : (DraftM.placed inOrder).Perm (DraftM.placed backwards) :=
    (List.reverse_perm (DraftM.placed inOrder)).symm
  have hbuilt : (returned? (DraftM.buildFrom inOrder Draft.empty)).isSome = true := by
    decide +kernel
  obtain ⟨hiff, halike⟩ := DraftM.buildFrom_perm hp
  obtain ⟨⟨schema, draft⟩, hr⟩ := Option.isSome_iff_exists.1 hbuilt
  have h := returned?_eq_some hr
  obtain ⟨schema', draft', h'⟩ := hiff.1 ⟨schema, draft, h⟩
  exact ⟨hp, schema, schema', draft, draft', h, h', (halike _ _ _ _ h h').1⟩

end Sample

end EntityGraph
