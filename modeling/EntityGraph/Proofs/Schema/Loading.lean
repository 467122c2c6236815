import EntityGraph.Proofs.Schema.BuiltSchema

/-!
# What is loaded into a draft

Every definition of a schema text is entered on its own, and what it can be refused for is known
from the definitions alone: `Loadable` says that type names are new and not reserved, that each
object or interface gives its fields once, that only objects are extended, and that no two schema
blocks name a root type for one kind of operations. Main statements: `Draft.exists_addAll_iff`,
definitions are entered exactly if they are loadable, and `Draft.Holds.addAll`, the draft then holds
their types in order, their extensions in order, and the root types that they name.
-/

namespace EntityGraph

open Grammar (FieldDefinition TypeDefinition TypeBody SchemaBlock Definition)

/-- A new key is entered at the end. -/
theorem Dict.entries_insert {κ ν : Type} [DecidableEq κ] {d : Dict κ ν} {k : κ} (v : ν)
    (h : k ∉ d.keys) : (d.insert k v).entries = d.entries ++ [(k, v)] := by
  have hput : ∀ l : List (κ × ν), k ∉ l.map Prod.fst → Dict.put k v l = l ++ [(k, v)] := by
    intro l
    induction l with
    | nil => intro _; rfl
    | cons e l ih =>
      intro hk
      rw [List.map_cons, List.mem_cons, not_or] at hk
      rw [Dict.put, if_neg hk.1, ih hk.2, List.cons_append]
  exact hput d.entries h

/-! ## What definitions say -/

namespace Grammar

namespace TypeBody

/-- The fields of an object or an interface. -/
def fields : TypeBody → List FieldDefinition
  | object _ fields | interface _ fields => fields
  | scalar | union _ | enum _ | inputObject _ => []

/-- The names of these fields. -/
def fieldNames (body : TypeBody) : List Name := body.fields.map (·.name)

/-- The interfaces that an object or an interface says it implements. -/
def interfaces : TypeBody → List Name
  | object interfaces _ | interface interfaces _ => interfaces
  | scalar | union _ | enum _ | inputObject _ => []

/-- Whether an object type is defined or extended. -/
def isObject : TypeBody → Bool
  | object _ _ => true
  | scalar | interface _ _ | union _ | enum _ | inputObject _ => false

/-- Whether an interface is defined or extended. -/
def isInterface : TypeBody → Bool
  | interface _ _ => true
  | scalar | object _ _ | union _ | enum _ | inputObject _ => false

end TypeBody

namespace Definition

/-- The type that is defined. -/
def type? : Definition → Option TypeDefinition
  | type d => some d
  | schema _ | extension _ | directive _ => none

/-- The root type that is named for a kind of operations. -/
def root? (kind : OperationKind) : Definition → Option Name
  | schema block => block.root kind
  | type _ | extension _ | directive _ => none

/-- The type that is defined, under its name. -/
def keyed? (file : Option SourcePath) (d : Definition) : Option (Name × NamedType) :=
  d.type?.map fun t => (t.name, .ofDefinition file t)

/-- The extension of an object type. -/
def extension? (file : Option SourcePath) : Definition → Option ObjectExtension
  | extension ⟨pos, _, name, .object interfaces fields⟩ =>
    some ⟨file, pos, name, interfaces, fields⟩
  | extension _ | schema _ | type _ | directive _ => none

/-- The reference to the root type that is named for a kind of operations. -/
def rootRef? (file : Option SourcePath) (kind : OperationKind) : Definition → Option TypeRef
  | schema block => (block.root kind).map fun name => ⟨name, .inSchema file block.pos⟩
  | type _ | extension _ | directive _ => none

end Definition

/-- The names of the types that are defined. -/
def definedNames (ds : List Definition) : List Name := (ds.filterMap (·.type?)).map (·.name)

/-- The root types that are named for a kind of operations. -/
def rootNames (kind : OperationKind) (ds : List Definition) : List Name :=
  ds.filterMap (·.root? kind)

end Grammar

open Grammar (definedNames rootNames)

/-- Definitions that can be entered into a draft which has types of the names `taken`, and root
types for the kinds of operations in `rooted`. -/
structure Loadable (taken : List Name) (rooted : OperationKind → Prop) (ds : List Definition) :
    Prop where
  unreserved : ∀ d, .type d ∈ ds → ¬ ['_', '_'] <+: d.name.toList
  distinct : (taken ++ definedNames ds).Nodup
  fields : ∀ d, .type d ∈ ds → (typenameField :: d.body.fieldNames).Nodup
  extensions : ∀ d, .extension d ∈ ds → d.body.isObject
  roots : ∀ kind, (rootNames kind ds).length ≤ 1 ∧ (rooted kind → rootNames kind ds = [])

namespace Draft

variable {draft draft₁ draft' : Draft} {file : Option SourcePath}

/-! ## One definition -/

/-- No field is repeated exactly if the names are distinct and none of them is taken. -/
theorem firstRepeated?_eq_none_iff {fields : List FieldDefinition} {taken : List Name}
    (ht : taken.Nodup) :
    firstRepeated? taken fields = none ↔ (taken ++ fields.map (·.name)).Nodup := by
  induction fields generalizing taken with
  | nil => simpa [firstRepeated?] using ht
  | cons f rest ih =>
    rw [firstRepeated?, List.map_cons]
    split
    · next hf =>
      refine ⟨nofun, fun h => ?_⟩
      exact absurd rfl ((List.nodup_append.1 h).2.2 f.name hf f.name (.head _))
    · next hf =>
      rw [ih (List.nodup_cons.2 ⟨hf, ht⟩), List.cons_append]
      exact List.perm_middle.symm.nodup_iff

/-- The fields of a definition are accepted exactly if they are distinct and none is
`__typename`. -/
theorem checkDefinition_eq_ok_iff {d : TypeDefinition} :
    checkDefinition file d = .ok () ↔ (typenameField :: d.body.fieldNames).Nodup := by
  have hfields : ∀ {fields : List FieldDefinition}, checkFields file d.name fields = .ok () ↔
      (typenameField :: fields.map (·.name)).Nodup := by
    intro fields
    rw [← List.singleton_append, ← firstRepeated?_eq_none_iff (by simp), checkFields]
    split
    · next h => simp [h]
    · next h => simp [h]
  unfold checkDefinition TypeBody.fieldNames TypeBody.fields
  cases d.body with
  | object _ fields | interface _ fields => exact hfields
  | scalar | union _ | enum _ | inputObject _ => simp

/-- A type is entered exactly if its name is new and not reserved. -/
theorem addType_eq_ok_iff {name : Name} {location : SourceLocation} {type : NamedType} :
    draft.addType name location type = .ok draft' ↔
      ¬ ['_', '_'] <+: name.toList ∧ name ∉ draft.types.keys ∧
        { draft with types := draft.types.insert name type } = draft' := by
  rw [addType, isReserved, ← List.isPrefixOf_iff_prefix, ← Dict.find?_eq_none_iff]
  split
  · next h => simp [h]
  · next h =>
    split
    · next other ho => simp [ho]
    · next ho => simp [h, ho]

/-- A type definition is entered exactly if its fields are accepted and its name is new. -/
theorem add_type_eq_ok_iff {d : TypeDefinition} :
    draft.add file (.type d) = .ok draft' ↔
      (typenameField :: d.body.fieldNames).Nodup ∧ ¬ ['_', '_'] <+: d.name.toList ∧
        d.name ∉ draft.types.keys ∧
        { draft with types := draft.types.insert d.name (.ofDefinition file d) } = draft' := by
  change (checkDefinition file d >>= fun _ => draft.addType ..) = _ ↔ _
  rw [Except.unit_bind_eq_ok_iff, checkDefinition_eq_ok_iff, addType_eq_ok_iff]

/-- An extension is kept exactly if it extends an object type. -/
theorem add_extension_eq_ok_iff {d : TypeDefinition} :
    draft.add file (.extension d) = .ok draft' ↔
      d.body.isObject ∧
        { draft with
          extensions := draft.extensions ++ ((Definition.extension d).extension? file).toList } =
            draft' := by
  obtain ⟨pos, description, name, body⟩ := d
  cases body with
  | object interfaces fields =>
    simp [add, addExtension, TypeBody.isObject, Definition.extension?]
  | scalar | interface | union | enum | inputObject =>
    simp [add, addExtension, TypeBody.isObject]

/-- The root type of one kind is named, and that of another kind stays. -/
theorem root?_setRoot {ref : TypeRef} {kind kind' : OperationKind} :
    (draft.setRoot ref kind).root? kind' =
      if kind' = kind then some ref else draft.root? kind' := by
  cases kind <;> cases kind' <;> rfl

/-- Naming a root type changes nothing else. -/
theorem setRoot_rest {ref : TypeRef} {kind : OperationKind} :
    (draft.setRoot ref kind).types = draft.types ∧
      (draft.setRoot ref kind).extensions = draft.extensions := by
  cases kind <;> exact ⟨rfl, rfl⟩

/-- Takes over the root type that a block names for one kind of operations. -/
def takeRoot (file : Option SourcePath) (block : SchemaBlock) (draft : Draft)
    (kind : OperationKind) : Except SchemaError Draft :=
  match (Definition.schema block).rootRef? file kind with
  | none => .ok draft
  | some ref => draft.addRoot kind ref

/-- A block is taken over one kind of operations after the other. -/
theorem addBlock_ok_iff {block : SchemaBlock} :
    draft.addBlock file block = .ok draft' ↔
      ∃ draft₁ draft₂, takeRoot file block draft .query = .ok draft₁ ∧
        takeRoot file block draft₁ .mutation = .ok draft₂ ∧
        takeRoot file block draft₂ .subscription = .ok draft' := by
  have heq : draft.addBlock file block =
      [OperationKind.query, .mutation, .subscription].foldlM (takeRoot file block) draft := by
    unfold addBlock
    congr 1
    funext draft kind
    simp only [takeRoot, Definition.rootRef?]
    cases block.root kind <;> rfl
  simp [heq, Except.bind_eq_ok_iff, pure, Except.pure]

/-- A root type is taken over exactly if none was named for the kind of operations before. -/
theorem exists_takeRoot_iff {block : SchemaBlock} {kind : OperationKind} :
    (∃ draft', takeRoot file block draft kind = .ok draft') ↔
      block.root kind = none ∨ draft.root? kind = none := by
  simp only [takeRoot, Definition.rootRef?, addRoot]
  cases block.root kind with
  | none => simp
  | some name => cases draft.root? kind <;> simp

/-- What taking over a root type leaves. -/
theorem takeRoot_ok {block : SchemaBlock} {kind : OperationKind}
    (h : takeRoot file block draft kind = .ok draft') :
    draft'.types = draft.types ∧ draft'.extensions = draft.extensions ∧
      ∀ kind', draft'.root? kind' =
        if kind' = kind then (draft.root? kind).or ((Definition.schema block).rootRef? file kind)
        else draft.root? kind' := by
  unfold takeRoot addRoot at h
  split at h
  · next hnone =>
    cases h
    refine ⟨rfl, rfl, fun kind' => ?_⟩
    split
    · next he => simp [he, hnone]
    · rfl
  · next ref href =>
    split at h
    · cases h
    · next hfree =>
      cases h
      refine ⟨setRoot_rest.1, setRoot_rest.2, fun kind' => ?_⟩
      rw [root?_setRoot, hfree, href]
      rfl

/-- A schema block is taken over exactly if it names no root type that was named before. -/
theorem exists_addBlock_iff {block : SchemaBlock} :
    (∃ draft', draft.addBlock file block = .ok draft') ↔
      ∀ kind, block.root kind = none ∨ draft.root? kind = none := by
  simp only [addBlock_ok_iff]
  constructor
  · rintro ⟨draft', draft₁, draft₂, hq, hm, hs⟩ kind
    cases kind with
    | query => exact exists_takeRoot_iff.1 ⟨_, hq⟩
    | mutation =>
      simpa [(takeRoot_ok hq).2.2] using exists_takeRoot_iff.1 ⟨_, hm⟩
    | subscription =>
      simpa [(takeRoot_ok hq).2.2, (takeRoot_ok hm).2.2] using exists_takeRoot_iff.1 ⟨_, hs⟩
  · intro h
    have hfree : ∀ {draft' : Draft} {kind : OperationKind},
        block.root kind = none ∨ draft'.root? kind = none →
          ∃ draft₁, takeRoot file block draft' kind = .ok draft₁ := exists_takeRoot_iff.2
    obtain ⟨draft₁, hq⟩ := hfree (h .query)
    have hmutation : block.root .mutation = none ∨ draft₁.root? .mutation = none := by
      simpa [(takeRoot_ok hq).2.2] using h .mutation
    obtain ⟨draft₂, hm⟩ := hfree hmutation
    have hsubscription : block.root .subscription = none ∨ draft₂.root? .subscription = none := by
      simpa [(takeRoot_ok hq).2.2, (takeRoot_ok hm).2.2] using h .subscription
    obtain ⟨draft', hs⟩ := hfree hsubscription
    exact ⟨draft', draft₁, draft₂, hq, hm, hs⟩

/-! ## Many definitions -/

/-- The draft `draft'` holds what `draft` holds and then what the definitions say, each of which
stands in its file. -/
structure Holds (draft : Draft) (ps : List (Option SourcePath × Definition)) (draft' : Draft) :
    Prop where
  types : draft'.types.entries = draft.types.entries ++ ps.filterMap fun p => p.2.keyed? p.1
  extensions : draft'.extensions = draft.extensions ++ ps.filterMap fun p => p.2.extension? p.1
  roots : ∀ kind, draft'.root? kind =
    (draft.root? kind).or (ps.findSome? fun p => p.2.rootRef? p.1 kind)

/-- Definitions are entered one after the other. -/
theorem Holds.trans {ps qs : List (Option SourcePath × Definition)} (h : draft.Holds ps draft₁)
    (h' : draft₁.Holds qs draft') : draft.Holds (ps ++ qs) draft' where
  types := by rw [h'.types, h.types, List.filterMap_append, List.append_assoc]
  extensions := by rw [h'.extensions, h.extensions, List.filterMap_append, List.append_assoc]
  roots kind := by rw [h'.roots, h.roots, List.findSome?_append, Option.or_assoc]

/-- What entering one definition leaves. -/
theorem Holds.add {d : Definition} (h : draft.add file d = .ok draft') :
    draft.Holds [(file, d)] draft' := by
  cases d with
  | schema block =>
    obtain ⟨draft₁, draft₂, hq, hm, hs⟩ := addBlock_ok_iff.1 h
    obtain ⟨htq, heq, hrq⟩ := takeRoot_ok hq
    obtain ⟨htm, hem, hrm⟩ := takeRoot_ok hm
    obtain ⟨hts, hes, hrs⟩ := takeRoot_ok hs
    refine ⟨?_, ?_, fun kind => ?_⟩
    · simp [hts, htm, htq, Definition.keyed?, Definition.type?]
    · simp [hes, hem, heq, Definition.extension?]
    · cases kind <;> simp [hrs, hrm, hrq]
  | type d =>
    obtain ⟨-, -, hnew, rfl⟩ := add_type_eq_ok_iff.1 h
    refine ⟨?_, ?_, fun kind => ?_⟩
    · simp [Dict.entries_insert _ hnew, Definition.keyed?, Definition.type?]
    · simp [Definition.extension?]
    · cases kind <;> simp [Definition.rootRef?, root?]
  | extension d =>
    obtain ⟨-, rfl⟩ := add_extension_eq_ok_iff.1 h
    refine ⟨?_, ?_, fun kind => ?_⟩
    · simp [Definition.keyed?, Definition.type?]
    · cases he : (Definition.extension d).extension? file <;> simp [he]
    · cases kind <;> simp [Definition.rootRef?, root?]
  | directive name =>
    cases h
    refine ⟨?_, ?_, fun kind => ?_⟩
    · simp [Definition.keyed?, Definition.type?]
    · simp [Definition.extension?]
    · cases kind <;> simp [Definition.rootRef?, root?]

/-- Enters definitions, each of which stands in its file. -/
def addAll (draft : Draft) (ps : List (Option SourcePath × Definition)) :
    Except SchemaError Draft :=
  ps.foldlM (fun draft p => draft.add p.1 p.2) draft

/-- What entering definitions leaves. -/
theorem Holds.addAll {ps : List (Option SourcePath × Definition)}
    (h : draft.addAll ps = .ok draft') : draft.Holds ps draft' := by
  induction ps generalizing draft with
  | nil =>
    cases h
    exact ⟨by simp, by simp, by simp⟩
  | cons p ps ih =>
    obtain ⟨draft₁, h₁, h₂⟩ := Except.foldlM_cons_ok_iff.1 h
    exact (Holds.add h₁).trans (ih h₂)

/-- One definition is entered exactly if it is loadable. -/
theorem exists_add_iff {d : Definition} :
    (∃ draft', draft.add file d = .ok draft') ↔
      Loadable draft.types.keys (fun kind => (draft.root? kind).isSome) [d] := by
  have hkeys := draft.types.nodup_keys
  cases d with
  | schema block =>
    have hroot : ∀ kind, (block.root kind = none ∨ draft.root? kind = none) ↔
        (rootNames kind [.schema block]).length ≤ 1 ∧
          ((draft.root? kind).isSome → rootNames kind [.schema block] = []) := by
      intro kind
      cases h : block.root kind <;> simp [rootNames, Definition.root?, h]
    refine exists_addBlock_iff.trans ((forall_congr' hroot).trans ⟨fun h => ?_, fun h => h.roots⟩)
    exact ⟨by simp, by simpa [definedNames, Definition.type?], by simp, by simp, h⟩
  | type d =>
    have hnames : (draft.types.keys ++ definedNames [.type d]).Nodup ↔
        d.name ∉ draft.types.keys := by
      simp only [definedNames, Definition.type?, List.filterMap_cons, List.filterMap_nil,
        List.map_cons, List.map_nil, List.nodup_append]
      grind
    simp only [add_type_eq_ok_iff]
    constructor
    · rintro ⟨_, hfields, hreserved, hnew, -⟩
      refine ⟨by simpa, hnames.2 hnew, ?_, by simp, fun kind => ?_⟩
      · rintro t ht
        cases List.mem_singleton.1 ht
        exact hfields
      · simp [rootNames, Definition.root?]
    · intro h
      exact ⟨_, h.fields d (.head _), h.unreserved d (.head _), hnames.1 h.distinct, rfl⟩
  | extension d =>
    simp only [add_extension_eq_ok_iff]
    constructor
    · rintro ⟨_, hobject, -⟩
      refine ⟨by simp, ?_, by simp, by simpa, fun kind => ?_⟩
      · simpa [definedNames, Definition.type?]
      · simp [rootNames, Definition.root?]
    · intro h
      exact ⟨_, h.extensions d (.head _), rfl⟩
  | directive name =>
    refine ⟨fun _ => ⟨by simp, ?_, by simp, by simp, fun kind => ?_⟩, fun _ => ⟨_, rfl⟩⟩
    · simpa [definedNames, Definition.type?]
    · simp [rootNames, Definition.root?]

end Draft

/-- A list made of two parts has at most one element, and none in the case `r`. -/
private theorem append_length_le_one_iff {α : Type} {r : Prop} {l l' : List α} :
    ((l ++ l').length ≤ 1 ∧ (r → l ++ l' = [])) ↔
      (l.length ≤ 1 ∧ (r → l = [])) ∧ l'.length ≤ 1 ∧ (r ∨ l ≠ [] → l' = []) := by
  cases l with
  | nil => simp
  | cons a l =>
    cases l' with
    | nil => simp
    | cons b l' => simp

/-- Definitions are loadable exactly if the first ones are, and the others are after them. -/
theorem loadable_append_iff {taken : List Name} {rooted : OperationKind → Prop}
    {ds ds' : List Definition} :
    Loadable taken rooted (ds ++ ds') ↔
      Loadable taken rooted ds ∧
        Loadable (taken ++ definedNames ds)
          (fun kind => rooted kind ∨ rootNames kind ds ≠ []) ds' := by
  have hnames : definedNames (ds ++ ds') = definedNames ds ++ definedNames ds' := by
    simp only [definedNames, List.filterMap_append, List.map_append]
  have hroots : ∀ kind, rootNames kind (ds ++ ds') = rootNames kind ds ++ rootNames kind ds' :=
    fun kind => List.filterMap_append
  constructor
  · intro h
    have hdistinct : (taken ++ definedNames ds ++ definedNames ds').Nodup := by
      rw [List.append_assoc, ← hnames]
      exact h.distinct
    refine ⟨⟨fun t ht => ?_, (List.nodup_append.1 hdistinct).1, fun t ht => ?_, fun t ht => ?_,
      fun kind => ?_⟩, ⟨fun t ht => ?_, hdistinct, fun t ht => ?_, fun t ht => ?_, fun kind => ?_⟩⟩
    · exact h.unreserved t (List.mem_append_left _ ht)
    · exact h.fields t (List.mem_append_left _ ht)
    · exact h.extensions t (List.mem_append_left _ ht)
    · exact (append_length_le_one_iff.1 (hroots kind ▸ h.roots kind)).1
    · exact h.unreserved t (List.mem_append_right _ ht)
    · exact h.fields t (List.mem_append_right _ ht)
    · exact h.extensions t (List.mem_append_right _ ht)
    · exact (append_length_le_one_iff.1 (hroots kind ▸ h.roots kind)).2
  · rintro ⟨h, h'⟩
    refine ⟨fun t ht => ?_, ?_, fun t ht => ?_, fun t ht => ?_, fun kind => ?_⟩
    · exact (List.mem_append.1 ht).elim (h.unreserved t) (h'.unreserved t)
    · rw [hnames, ← List.append_assoc]
      exact h'.distinct
    · exact (List.mem_append.1 ht).elim (h.fields t) (h'.fields t)
    · exact (List.mem_append.1 ht).elim (h.extensions t) (h'.extensions t)
    · exact hroots kind ▸ append_length_le_one_iff.2 ⟨h.roots kind, h'.roots kind⟩

namespace Draft

variable {draft draft₁ draft' : Draft} {file : Option SourcePath}

/-- The names that a draft has types of. -/
theorem Holds.keys {ps : List (Option SourcePath × Definition)} (h : draft.Holds ps draft') :
    draft'.types.keys = draft.types.keys ++ definedNames (ps.map (·.2)) := by
  simp only [Dict.keys, h.types, List.map_append, definedNames, List.filterMap_map,
    List.map_filterMap, Definition.keyed?, Option.map_map]
  rfl

/-- The kinds of operations that a draft has root types for. -/
theorem Holds.isSome_root? {ps : List (Option SourcePath × Definition)}
    (h : draft.Holds ps draft') (kind : OperationKind) :
    (draft'.root? kind).isSome ↔
      (draft.root? kind).isSome ∨ rootNames kind (ps.map (·.2)) ≠ [] := by
  have href : ∀ p : Option SourcePath × Definition,
      (p.2.rootRef? p.1 kind).isSome = (p.2.root? kind).isSome := by
    intro p
    cases hp : p.2 <;> simp [Definition.rootRef?, Definition.root?]
  simp [h.roots, rootNames, List.filterMap_map, href, ← Option.isSome_iff_ne_none]

/-- Definitions are entered exactly if they are loadable. -/
theorem exists_addAll_iff {ps : List (Option SourcePath × Definition)} :
    (∃ draft', draft.addAll ps = .ok draft') ↔
      Loadable draft.types.keys (fun kind => (draft.root? kind).isSome) (ps.map (·.2)) := by
  induction ps generalizing draft with
  | nil =>
    refine ⟨fun _ => ⟨by simp, ?_, by simp, by simp, by simp [rootNames]⟩, fun _ => ⟨draft, rfl⟩⟩
    simpa [definedNames] using draft.types.nodup_keys
  | cons p ps ih =>
    have hcons : (p :: ps).map (·.2) = [p.2] ++ ps.map (·.2) := rfl
    rw [hcons, loadable_append_iff]
    have hrest : ∀ draft₁, draft.add p.1 p.2 = .ok draft₁ →
        ((∃ draft', draft₁.addAll ps = .ok draft') ↔
          Loadable (draft.types.keys ++ definedNames [p.2])
            (fun kind => (draft.root? kind).isSome ∨ rootNames kind [p.2] ≠ [])
            (ps.map (·.2))) := by
      intro draft₁ h₁
      have hheld := Holds.add h₁
      rw [ih, hheld.keys, funext fun kind => propext (hheld.isSome_root? kind)]
      rfl
    constructor
    · rintro ⟨draft', h⟩
      obtain ⟨draft₁, h₁, h₂⟩ := Except.foldlM_cons_ok_iff.1 h
      exact ⟨exists_add_iff.1 ⟨draft₁, h₁⟩, (hrest draft₁ h₁).1 ⟨draft', h₂⟩⟩
    · rintro ⟨hfirst, h⟩
      obtain ⟨draft₁, h₁⟩ := exists_add_iff.2 hfirst
      obtain ⟨draft', h₂⟩ := (hrest draft₁ h₁).2 h
      exact ⟨draft', Except.foldlM_cons_ok_iff.2 ⟨draft₁, h₁, h₂⟩⟩

/-! ## Loads -/

/-- A load enters the definitions of its file. -/
theorem loadDefinitions_eq_ok_iff {ds : List Definition} :
    DraftM.loadDefinitions file ds draft = .ok () draft' ↔
      draft.addAll (ds.map fun d => (file, d)) = .ok draft' := by
  induction ds generalizing draft with
  | nil =>
    constructor
    · intro h
      cases h
      rfl
    · intro h
      cases h
      rfl
  | cons d ds ih =>
    have hone : ∀ {draft₁}, DraftM.loadDefinition file d draft = .ok () draft₁ ↔
        draft.add file d = .ok draft₁ := by
      intro draft₁
      unfold DraftM.loadDefinition
      cases draft.add file d <;> simp
    change (DraftM.loadDefinition file d >>= fun _ => DraftM.loadDefinitions file ds) draft = _ ↔ _
    rw [List.map_cons, addAll, Except.foldlM_cons_ok_iff, EStateM.bind_eq_ok_iff]
    exact ⟨fun ⟨_, draft₁, h₁, h₂⟩ => ⟨draft₁, hone.1 h₁, ih.1 h₂⟩,
      fun ⟨draft₁, h₁, h₂⟩ => ⟨(), draft₁, hone.2 h₁, ih.2 h₂⟩⟩

/-- A draft without definitions has the built-in scalars. -/
theorem keys_empty : Draft.empty.types.keys = builtInScalarNames := rfl

/-- A draft without definitions has no root types. -/
@[simp] theorem root?_empty (kind : OperationKind) : Draft.empty.root? kind = none := by
  cases kind <;> rfl

/-- Definitions are entered into an empty draft exactly if they are loadable. -/
theorem exists_addAll_empty_iff {ps : List (Option SourcePath × Definition)} :
    (∃ draft, Draft.empty.addAll ps = .ok draft) ↔
      Loadable builtInScalarNames (fun _ => False) (ps.map (·.2)) := by
  simp [exists_addAll_iff, keys_empty]

section
variable {ps : List (Option SourcePath × Definition)} (h : Draft.empty.Holds ps draft)
include h

/-- What one load adds goes after what was loaded before it. -/
theorem Holds.load {ds : List Definition}
    (hl : Loadable builtInScalarNames (fun _ => False) (ps.map (·.2)))
    (hd : DraftM.loadDefinitions file ds draft = .ok () draft') :
    Draft.empty.Holds (ps ++ ds.map fun d => (file, d)) draft' ∧
      Loadable builtInScalarNames (fun _ => False)
        ((ps ++ ds.map fun d => (file, d)).map (·.2)) := by
  have hadd := loadDefinitions_eq_ok_iff.1 hd
  refine ⟨h.trans (Holds.addAll hadd), ?_⟩
  rw [List.map_append]
  refine loadable_append_iff.2 ⟨hl, ?_⟩
  have hds := exists_addAll_iff.1 ⟨_, hadd⟩
  have hroots : ∀ kind, (draft.root? kind).isSome ↔
      (False ∨ rootNames kind (ps.map (·.2)) ≠ []) := by
    intro kind
    simp [h.isSome_root?]
  rwa [h.keys, keys_empty, funext fun kind => propext (hroots kind)] at hds

/-- Naming a text leaves what a draft holds. -/
theorem Holds.nameText {path : SourcePath}
    (hn : DraftM.nameText file draft = .ok path draft') : Draft.empty.Holds ps draft' := by
  cases file with
  | some path => cases hn; exact h
  | none =>
    cases hn
    refine ⟨h.types, h.extensions, fun kind => ?_⟩
    rw [← h.roots kind]
    cases kind <;> rfl

end

/-- A draft holds definitions that can be loaded into an empty draft. -/
theorem Loaded.holds (h : Loaded draft) :
    ∃ ps : List (Option SourcePath × Definition), Draft.empty.Holds ps draft ∧
      Loadable builtInScalarNames (fun _ => False) (ps.map (·.2)) := by
  induction h with
  | empty => exact ⟨[], Holds.addAll rfl, exists_addAll_empty_iff.1 ⟨_, rfl⟩⟩
  | definitions _ h ih =>
    obtain ⟨ps, hheld, hps⟩ := ih
    exact ⟨_, hheld.load hps h⟩
  | @text draft draft' file text _ h ih =>
    obtain ⟨ps, hheld, hps⟩ := ih
    obtain ⟨path, draft₁, h₁, h₂⟩ := EntityGraph.ok_of_bind h
    cases hp : Definition.parse? text with
    | some ds => rw [hp] at h₂; exact ⟨_, (hheld.nameText h₁).load hps h₂⟩
    | none => rw [hp] at h₂; cases h₂

end Draft

end EntityGraph
