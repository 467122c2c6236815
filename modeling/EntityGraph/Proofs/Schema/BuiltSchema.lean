import EntityGraph.Proofs.Questions.Answers
import EntityGraph.Schema.Draft

/-!
# Schemas that were built

`Schema.Built` holds of the schemas that a draft was finished to, after any number of texts and
definitions were loaded into it. Every definition is entered under its own name, extensions keep the
name of what they extend (`KeptByName`), and finishing checks members and root types; so a schema
that was built is coherent (`Schema.Built.coherent`).
-/

namespace EntityGraph

/-- The drafts that loading leads to. A load that fails leaves no draft behind. -/
inductive Draft.Loaded : Draft → Prop
  | empty : Loaded .empty
  | definitions {draft draft' : Draft} {file : Option SourcePath} {ds : List Grammar.Definition} :
      Loaded draft → DraftM.loadDefinitions file ds draft = .ok () draft' → Loaded draft'
  | text {draft draft' : Draft} {file : Option SourcePath} {text : String} :
      Loaded draft → DraftM.loadText file text draft = .ok () draft' → Loaded draft'

/-- The schema was built from some loads. -/
def Schema.Built (schema : Schema) : Prop :=
  ∃ draft draft', Draft.Loaded draft ∧ DraftM.build draft = .ok schema draft'

/-- Every type is kept under its own name. -/
def KeptByName (types : Dict Name NamedType) : Prop := ∀ n t, types.find? n = some t → t.name = n

/-- A type that is entered under its own name. -/
theorem KeptByName.insert {types : Dict Name NamedType} {n : Name} {t : NamedType}
    (h : KeptByName types) (ht : t.name = n) : KeptByName (types.insert n t) := by
  intro n' t' hf
  rw [Dict.find?_insert] at hf
  split at hf
  · next hn => cases hf; rw [ht, hn]
  · exact h n' t' hf

/-- Types that are entered under their own names, one after the other. -/
theorem KeptByName.insertAll {l : List (Name × NamedType)} {types : Dict Name NamedType}
    (h : KeptByName types) (hl : ∀ e ∈ l, e.2.name = e.1) : KeptByName (types.insertAll l) := by
  induction l generalizing types with
  | nil => exact h
  | cons e l ih =>
    exact ih (h.insert (hl e (.head _))) fun e' he' => hl e' (List.mem_cons_of_mem _ he')

/-! ## Names of types -/

section
variable (file : Option SourcePath)

/-- Fields and interfaces are added to a type without changing its name. -/
theorem FieldedType.name_extend (location : SourceLocation) (interfaces : List Name)
    (fields : List Grammar.FieldDefinition) (t : FieldedType) :
    (t.extend file location interfaces fields).name = t.name := by
  have hf : ∀ (t : FieldedType), (fields.foldl (addField file) t).name = t.name := by
    induction fields with
    | nil => intro t; rfl
    | cons d ds ih => intro t; rw [List.foldl_cons, ih, addField]; split <;> rfl
  have hi : ∀ (t : FieldedType), (interfaces.foldl (addInterface location) t).name = t.name := by
    induction interfaces with
    | nil => intro t; rfl
    | cons i is ih => intro t; rw [List.foldl_cons, ih, addInterface]; split <;> rfl
  rw [extend, hi, hf]

/-- A definition stands for a type of its name. -/
theorem NamedType.name_ofDefinition (d : Grammar.TypeDefinition) :
    (NamedType.ofDefinition file d).name = d.name := by
  unfold ofDefinition
  cases d.body with
  | scalar | union | enum | inputObject => rfl
  | object interfaces fields | interface interfaces fields =>
    exact FieldedType.name_extend file ..

end

/-! ## Loading -/

namespace Draft

variable {draft draft' : Draft} {file : Option SourcePath}

/-- A schema block names root types and nothing else. -/
theorem types_addBlock {block : Grammar.SchemaBlock} (h : draft.addBlock file block = .ok draft') :
    draft'.types = draft.types := by
  refine Except.foldlM_keeps (P := fun d => d.types = draft.types) ?_ rfl h
  intro d kind d' hd h
  split at h
  · cases h; exact hd
  · unfold addRoot at h
    split at h
    · cases h
    · cases h
      cases kind <;> exact hd

/-- Entering a definition keeps every type under its name. -/
theorem keptByName_add {d : Grammar.Definition} (hd : KeptByName draft.types)
    (h : draft.add file d = .ok draft') : KeptByName draft'.types := by
  cases d with
  | schema block => exact types_addBlock h ▸ hd
  | type d =>
    obtain ⟨-, -, h⟩ := Except.ok_of_bind h
    unfold addType at h
    split at h
    · cases h
    split at h
    · cases h
    · cases h
      exact hd.insert (NamedType.name_ofDefinition file d)
  | extension d =>
    change draft.addExtension file d = _ at h
    unfold addExtension at h
    cases hb : d.body with
    | object => rw [hb] at h; cases h; exact hd
    | scalar | interface | union | enum | inputObject => rw [hb] at h; cases h
  | directive name => cases h; exact hd

/-- The built-in scalars are kept under their names. -/
theorem keptByName_empty : KeptByName Draft.empty.types := by
  refine KeptByName.insertAll (fun _ _ h => nomatch h) fun e he => ?_
  obtain ⟨n, -, rfl⟩ := List.mem_map.1 he
  rfl

/-- Loading keeps every type under its name. -/
theorem keptByName_loadDefinitions {ds : List Grammar.Definition} (hd : KeptByName draft.types)
    (h : DraftM.loadDefinitions file ds draft = .ok () draft') : KeptByName draft'.types := by
  induction ds generalizing draft with
  | nil => cases h; exact hd
  | cons d ds ih =>
    obtain ⟨u, draft₁, h₁, h₂⟩ := EntityGraph.ok_of_bind h
    unfold DraftM.loadDefinition at h₁
    split at h₁
    · next draft₂ ha => cases h₁; exact ih (keptByName_add hd ha) h₂
    · cases h₁

/-- Every draft keeps its types under their names. -/
theorem Loaded.keptByName (h : Loaded draft) : KeptByName draft.types := by
  induction h with
  | empty => exact keptByName_empty
  | definitions _ h ih => exact keptByName_loadDefinitions ih h
  | @text draft draft' file text _ h ih =>
    obtain ⟨path, draft₁, h₁, h₂⟩ := EntityGraph.ok_of_bind h
    have ih₁ : KeptByName draft₁.types := by
      cases file <;> (cases h₁; exact ih)
    cases hp : Grammar.Definition.parse? text with
    | some ds => rw [hp] at h₂; exact keptByName_loadDefinitions ih₁ h₂
    | none => rw [hp] at h₂; cases h₂

/-! ## Finishing -/

/-- An extension keeps the name of the type that it extends. -/
theorem keptByName_applyExtension {types types' : Dict Name NamedType} {e : ObjectExtension}
    (ht : KeptByName types) (h : applyExtension types e = .ok types') : KeptByName types' := by
  unfold applyExtension at h
  split at h
  · next t hf =>
    split at h
    · cases h
    · cases h
      exact ht.insert ((FieldedType.name_extend ..).trans (ht _ _ hf))
  · cases h
  · cases h

/-- The root type that is settled is an object type. -/
theorem resolveRoot_object {types : Dict Name NamedType} {kind : OperationKind}
    {named : Option TypeRef} {ref : TypeRef} (ht : KeptByName types)
    (h : resolveRoot types kind named = .ok (some ref)) :
    ∃ o, types.find? ref.name = some (.object o) := by
  unfold resolveRoot at h
  split at h
  · split at h
    · next o hf => cases h; exact ⟨o, hf⟩
    · cases h
    · cases h
  · split at h
    · next o hf =>
      cases h
      have hn : o.name = kind.defaultRootName := ht _ _ hf
      exact ⟨o, hn ▸ hf⟩
    · cases h

end Draft

/-- The members of a checked union are object types. -/
theorem Draft.checkMembers_object {types : Dict Name NamedType} {t : UnionType}
    (h : Draft.checkMembers types t = .ok ()) :
    ∀ m ∈ t.memberNames, ∃ o, types.find? m = some (.object o) := by
  intro m hm
  have hc := Except.ok_of_forM h m hm
  split at hc
  · next o hf => exact ⟨o, hf⟩
  · cases hc

/-- What a schema that was built guarantees about its names. -/
theorem Schema.Built.coherent {schema : Schema} (h : schema.Built) : schema.Coherent := by
  obtain ⟨draft, draft', hl, hb⟩ := h
  unfold DraftM.build at hb
  split at hb
  · next schema' hf =>
    cases hb
    unfold Draft.finish at hf
    obtain ⟨types, he, hf⟩ := Except.ok_of_bind hf
    obtain ⟨u, hc, hf⟩ := Except.ok_of_bind hf
    have hk : KeptByName types :=
      Except.foldlM_keeps (fun _ _ _ => Draft.keptByName_applyExtension) hl.keptByName he
    obtain ⟨query?, hq, hf⟩ := Except.ok_of_bind hf
    cases query? with
    | none => cases hf
    | some query =>
      obtain ⟨mutation, hm, hf⟩ := Except.ok_of_bind hf
      obtain ⟨subscription, hsub, hf⟩ := Except.ok_of_bind hf
      cases hf
      refine ⟨hk, fun n t ht => ?_, fun kind ref hr => ?_⟩
      · have hv : NamedType.union t ∈ types.values :=
          List.mem_map.2 ⟨_, Dict.find?_eq_some_iff.1 ht, rfl⟩
        exact Draft.checkMembers_object (Except.ok_of_forM hc _ hv)
      · cases kind with
        | query => cases hr; exact Draft.resolveRoot_object hk hq
        | mutation => cases hr; exact Draft.resolveRoot_object hk hm
        | subscription => cases hr; exact Draft.resolveRoot_object hk hsub
  · cases hb

end EntityGraph
