import EntityGraph.Proofs.Walk.Growth

/-!
# Well-formed units

What every entity and every storage of a unit satisfies, at each moment of its construction and with
every fragment that is copied into it. An entity belongs to its location, its fields are kept under
their own keys, lead where their types say, and share no object type under one response key
(`Entity.Formed`). A storage starts with its root, and each further location is a field of an
earlier one (`Rooted`); handles resolve, and merged fragments are referenced (`Workpiece.Formed`).
A field is merged only after the entity that it leads to is complete, so in between there is one
location that no field leads to yet, the one that the walk was started at (`Settles`).

Main statements, one for each kind of update: `Entity.Merge.formed`, `Workpiece.Formed.put`,
`Fills.note` and `Fills.merge`.
-/

namespace EntityGraph

open Conditions (Antichain)

/-! ## Entities -/

section
variable (schema : Schema)

/-- Where the value of a field of the entity at `l` is found, if it is one with fields. -/
def Schema.handle? (l : Location) (key : FieldKey) : Option Location :=
  if schema.Composite key.type.innermostName then
    some (l.append key.key key.type.innermostName)
  else none

/-- A field that the entity at `l` may have. -/
structure EntityField.Fits (l : Location) (f : EntityField) : Prop where
  nonempty : ∃ c, c ∈ f.conditions
  composite : ∀ c ∈ f.conditions, schema.Composite c
  within : ∀ c ∈ f.conditions, schema.Within c l.typeName
  child : f.child = schema.handle? l f.fieldKey

/-- The entity `e` is as the one at `l` has to be. -/
structure Entity.Formed (l : Location) (e : Entity) : Prop where
  location : e.location = l
  rootType : e.rootType = l.typeName
  composite : schema.Composite l.typeName
  keyed : ∀ key f, e.fields.find? key = some f → f.fieldKey = key
  fits : ∀ key f, e.fields.find? key = some f → f.Fits schema l
  antichain : ∀ key f, e.fields.find? key = some f → Antichain schema f.conditions
  /-- Fields of one response key and different types share no object type. -/
  apart : ∀ key f key' f', e.fields.find? key = some f → e.fields.find? key' = some f' →
    key.key = key'.key → key ≠ key' →
    ∀ c ∈ f.conditions, ∀ c' ∈ f'.conditions, ¬ schema.Overlap c c'

end

section
variable {schema : Schema} {l : Location} {e : Entity} {f m : EntityField}

/-- A type of another kind is not composite. -/
theorem Schema.not_composite {c : Name} {type : NamedType} (h : schema.types.find? c = some type)
    (hc : type.isComposite = false) : ¬ schema.Composite c := by
  rw [← Schema.any_isComposite_iff, h]
  simp [hc]

/-- Values of composite types are found one field further, and no others. -/
theorem Schema.handle?_eq_some_iff {key : FieldKey} {l' : Location} :
    schema.handle? l key = some l' ↔
      schema.Composite key.type.innermostName ∧
        l' = l.append key.key key.type.innermostName := by
  unfold Schema.handle?
  split
  · next hc => simp [hc, eq_comm (a := l')]
  · next hc => simp [hc]

/-- Values of other types are found nowhere. -/
theorem Schema.handle?_eq_none_iff {key : FieldKey} :
    schema.handle? l key = none ↔ ¬ schema.Composite key.type.innermostName := by
  unfold Schema.handle?
  split
  · next hc => simp [hc]
  · next hc => simp [hc]

/-- A field that is selected under one condition fits if the condition does. -/
theorem EntityField.Fits.single {key name condition : Name} {type : DeclaredType}
    {child : Option Location} (hc : schema.Composite condition)
    (hw : schema.Within condition l.typeName) (hchild : child = schema.handle? l ⟨key, type⟩) :
    (EntityField.single key name type child condition).Fits schema l where
  nonempty := ⟨condition, .head _⟩
  composite c hm := by rwa [List.mem_singleton.1 hm]
  within c hm := by rwa [List.mem_singleton.1 hm]
  child := hchild

/-- An entity before anything is selected. -/
theorem Entity.Formed.new (h : schema.Composite l.typeName) : (Entity.new l).Formed schema l where
  location := rfl
  rootType := rfl
  composite := h
  keyed _ _ hf := by cases hf
  fits _ _ hf := by cases hf
  antichain _ _ hf := by cases hf
  apart _ _ _ _ hf := by cases hf

namespace Entity.Merge

/-- The merged field has the key of the field. -/
theorem fieldKey_eq (h : Merge schema e f m) (he : e.Formed schema l) :
    m.fieldKey = f.fieldKey := by
  have hrest := congrArg EntityField.fieldKey h.rest
  cases hx : e.fields.find? f.fieldKey with
  | none => rw [hx] at hrest; exact hrest
  | some x => rw [hx] at hrest; exact hrest.trans (he.keyed _ x hx)

/-- Both fields lead to the same place, and so does the merged one. -/
theorem child_eq (h : Merge schema e f m) (he : e.Formed schema l) (hf : f.Fits schema l) :
    m.child = f.child := by
  have hrest := congrArg EntityField.child h.rest
  cases hx : e.fields.find? f.fieldKey with
  | none => rw [hx] at hrest; exact hrest
  | some x =>
    have hchild : x.child = f.child := by
      rw [(he.fits _ _ hx).child, hf.child, he.keyed _ _ hx]
    rw [hx] at hrest
    simpa [hchild] using hrest

/-- A condition of the merged field is one of the field, or of what was there before. -/
theorem condition_cases (h : Merge schema e f m) {c : Name} (hc : c ∈ m.conditions) :
    c ∈ f.conditions ∨ ∃ x, e.fields.find? f.fieldKey = some x ∧ c ∈ x.conditions := by
  rcases h.joins.subset c hc with hc | hc
  · unfold Entity.conditionsAt at hc
    split at hc
    · next x hx => exact .inr ⟨x, hx, hc⟩
    · cases hc
  · exact .inl hc

/-- The merged field fits as well. -/
theorem fits (h : Merge schema e f m) (he : e.Formed schema l) (hf : f.Fits schema l) :
    m.Fits schema l where
  nonempty := by
    obtain ⟨c, hc⟩ := hf.nonempty
    exact h.joins.nonempty (.inr (List.ne_nil_of_mem (OrderedSet.mem_toList.2 hc)))
  composite c hc := by
    rcases h.condition_cases hc with hc | ⟨x, hx, hc⟩
    · exact hf.composite c hc
    · exact (he.fits _ _ hx).composite c hc
  within c hc := by
    rcases h.condition_cases hc with hc | ⟨x, hx, hc⟩
    · exact hf.within c hc
    · exact (he.fits _ _ hx).within c hc
  child := by rw [h.child_eq he hf, h.fieldKey_eq he, hf.child]

/-- The conditions of the merged field are those of an antichain. -/
theorem antichain (h : Merge schema e f m) (he : e.Formed schema l) :
    Antichain schema m.conditions := by
  refine h.joins.antichain ?_
  unfold Entity.conditionsAt
  split
  · next x hx => exact he.antichain _ _ hx
  · exact fun a ha => by cases ha

/-- The merged field shares no object type with a field of the same response key. -/
theorem apart_of_key (h : Merge schema e f m) (he : e.Formed schema l) {key : FieldKey}
    {x : EntityField} (hx : e.fields.find? key = some x) (hk : f.key = key.key)
    (hne : f.fieldKey ≠ key) :
    ∀ c ∈ m.conditions, ∀ c' ∈ x.conditions, ¬ schema.Overlap c c' := by
  intro c hc c' hc' ho
  rcases h.condition_cases hc with hc | ⟨y, hy, hc⟩
  · have hkey := he.keyed _ _ hx
    have htype : x.type ≠ f.type := fun ht => hne (by
      rw [← hkey] at hk ⊢
      simp [EntityField.fieldKey, ht] at hk ⊢
      exact hk)
    refine h.apart x (Dict.mem_values_iff.2 ⟨key, hx⟩) ?_ htype c' hc' c hc ho.symm
    rw [hk, ← hkey]
    rfl
  · exact he.apart _ _ _ _ hy hx hk hne c hc c' hc' ho

/-- Merging keeps an entity as it has to be. -/
theorem formed (h : Merge schema e f m) (he : e.Formed schema l) (hf : f.Fits schema l) :
    Entity.Formed schema l { e with fields := e.fields.insert f.fieldKey m } where
  location := he.location
  rootType := he.rootType
  composite := he.composite
  keyed key x hx := by
    rw [Dict.find?_insert] at hx
    split at hx
    · next hk => cases hx; rw [hk, h.fieldKey_eq he]
    · exact he.keyed key x hx
  fits key x hx := by
    rw [Dict.find?_insert] at hx
    split at hx
    · cases hx; exact h.fits he hf
    · exact he.fits key x hx
  antichain key x hx := by
    rw [Dict.find?_insert] at hx
    split at hx
    · cases hx; exact h.antichain he
    · exact he.antichain key x hx
  apart key x key' x' hx hx' hk hne := by
    rw [Dict.find?_insert] at hx hx'
    split at hx <;> split at hx'
    · next h₁ h₂ => exact absurd (h₁.trans h₂.symm) hne
    · next h₁ _ =>
      cases hx
      exact h.apart_of_key he hx' (by rw [← hk, h₁]; rfl) (h₁ ▸ hne)
    · next _ h₂ =>
      cases hx'
      intro c hc c' hc' ho
      exact h.apart_of_key he hx (by rw [hk, h₂]; rfl) (h₂ ▸ hne.symm) c' hc' c hc ho.symm
    · exact he.apart key x key' x' hx hx' hk hne

end Entity.Merge

end

/-! ## Storages -/

/-- The root comes first, and every further location is a field of an earlier one. -/
def Rooted (root : Location) (keys : List Location) : Prop :=
  ∀ i l, keys[i]? = some l → (i = 0 ∧ l = root) ∨
    ∃ j < i, ∃ p key type, keys[j]? = some p ∧ l = p.append key type

/-- The location can be the next one. -/
def Next (root : Location) (keys : List Location) (l : Location) : Prop :=
  keys = [] ∧ l = root ∨ ∃ p ∈ keys, ∃ key type, l = p.append key type

namespace Rooted

variable {root l : Location} {keys : List Location}

/-- The next location goes to the end. -/
theorem append (h : Rooted root keys) (hn : Next root keys l) : Rooted root (keys ++ [l]) := by
  intro i l' hi
  by_cases hlt : i < keys.length
  · rw [List.getElem?_append_left hlt] at hi
    rcases h i l' hi with hroot | ⟨j, hj, p, key, type, hp, hl⟩
    · exact .inl hroot
    · refine .inr ⟨j, hj, p, key, type, ?_, hl⟩
      rw [List.getElem?_append_left (by omega), hp]
  · have hlast : i = keys.length ∧ l' = l := by
      rw [List.getElem?_append_right (by omega), List.getElem?_singleton] at hi
      split at hi
      · cases hi
        exact ⟨by omega, rfl⟩
      · cases hi
    obtain ⟨rfl, rfl⟩ := hlast
    rcases hn with ⟨rfl, hl⟩ | ⟨p, hp, key, type, hl⟩
    · exact .inl ⟨rfl, hl⟩
    · obtain ⟨j, hj, hjp⟩ := List.mem_iff_getElem.1 hp
      refine .inr ⟨j, hj, p, key, type, ?_, hl⟩
      rw [List.getElem?_append_left hj, List.getElem?_eq_getElem hj, hjp]

/-- A location is not longer than the number of those before it. -/
theorem length_path_le (h : Rooted root keys) (hr : root.path = []) {i : Nat}
    (hi : keys[i]? = some l) : l.path.length ≤ i := by
  induction i using Nat.strongRecOn generalizing l with
  | ind i ih =>
    rcases h i l hi with ⟨-, rfl⟩ | ⟨j, hj, p, key, type, hp, rfl⟩
    · simp [hr]
    · have hlength := ih j hj hp
      rw [Location.length_path_append]
      omega

/-- Locations are shorter than the number of all of them. -/
theorem length_path_lt (h : Rooted root keys) (hr : root.path = []) (hl : l ∈ keys) :
    l.path.length < keys.length := by
  obtain ⟨i, hi, hil⟩ := List.mem_iff_getElem.1 hl
  have hle := h.length_path_le hr (l := l) (by rw [List.getElem?_eq_getElem hi, hil])
  omega

end Rooted

/-- Some field leads to the location. -/
def Storage.Attached (entities : Storage) (l : Location) : Prop :=
  ∃ p key f, entities.field? p key = some f ∧ l = p.append key.key key.type.innermostName

section
variable (schema : Schema)

/-- The unit under construction, with the given root, is as it has to be. -/
structure Workpiece.Formed (root : Location) (w : Workpiece) : Prop where
  entities : ∀ l e, w.entities.find? l = some e → e.Formed schema l
  handles : ∀ l key f l', w.entities.field? l key = some f → f.child = some l' →
    l' ∈ w.entities.keys
  rooted : Rooted root w.entities.keys
  noted : ∀ l e, w.entities.find? l = some e →
    ∀ name ∈ e.mergedFragments, name ∈ w.referenced.keys

/-- The unit `w'` comes from `w` by growth below `base`, and fields lead to all that is new, apart
from `base` itself. -/
structure Settles (base : Location) (w w' : Workpiece) : Prop extends Grows schema base w w' where
  attached : ∀ l ∈ w'.entities.keys,
    l ∈ w.entities.keys ∨ l = base ∨ w'.entities.Attached l

/-- A walk at `l` has left a well-formed unit with an entity at `l`. -/
structure Fills (root l : Location) (w w' : Workpiece) : Prop where
  formed : w'.Formed schema root
  mem : l ∈ w'.entities.keys
  settles : Settles schema l w w'

end

section
variable {schema : Schema} {root l base : Location} {w w₁ w₂ w₃ w' : Workpiece} {e : Entity}

/-- A location that is led to stays so. -/
theorem Storage.Attached.mono (h : w.entities.Attached l) (hg : Grows schema base w w') :
    w'.entities.Attached l := by
  obtain ⟨p, key, f, hf, hl⟩ := h
  obtain ⟨f', hf', -⟩ := hg.fields p key f hf
  exact ⟨p, key, f', hf', hl⟩

/-- Nothing changes. -/
theorem Settles.refl (w : Workpiece) : Settles schema base w w :=
  ⟨.refl w, fun _ h => .inl h⟩

/-- Walks at one location follow one another. -/
theorem Settles.trans (h₁ : Settles schema base w₁ w₂) (h₂ : Settles schema base w₂ w₃) :
    Settles schema base w₁ w₃ := by
  refine ⟨h₁.toGrows.trans h₂.toGrows, fun l hl => ?_⟩
  rcases h₂.attached l hl with hl | hl | hl
  · rcases h₁.attached l hl with hl | hl | hl
    · exact .inl hl
    · exact .inr (.inl hl)
    · exact .inr (.inr (hl.mono h₂.toGrows))
  · exact .inr (.inl hl)
  · exact .inr (.inr hl)

/-- Replacing one entity makes no other location. -/
theorem Settles.put (h : Grows schema l w (w.put l e)) : Settles schema l w (w.put l e) := by
  refine ⟨h, fun l' hl' => ?_⟩
  rw [Workpiece.put, Dict.keys_insert] at hl'
  split at hl'
  · exact .inl hl'
  · rcases List.mem_append.1 hl' with hl' | hl'
    · exact .inl hl'
    · exact .inr (.inl (List.mem_singleton.1 hl'))

/-- Merging a field makes no other location. -/
theorem Merges.settles {f : EntityField} (h : Merges schema l f w w') : Settles schema l w w' := by
  have hg := h.grows
  obtain ⟨m, hm, rfl⟩ := h
  exact .put hg

/-- The location of a nested walk is led to as soon as its field is merged. -/
theorem Settles.merge {f : EntityField}
    (h : Settles schema (l.append f.key f.type.innermostName) w w₁)
    (hm : Merges schema l f w₁ w') : Settles schema l w w' := by
  have h₂ := hm.settles
  refine ⟨h.toGrows.of_append.trans h₂.toGrows, fun l' hl' => ?_⟩
  rcases h₂.attached l' hl' with hl' | hl' | hl'
  · rcases h.attached l' hl' with hl' | rfl | hl'
    · exact .inl hl'
    · obtain ⟨m, hf, -⟩ := hm.field
      exact .inr (.inr ⟨l, f.fieldKey, m, hf, rfl⟩)
    · exact .inr (.inr (hl'.mono h₂.toGrows))
  · exact .inr (.inl hl')
  · exact .inr (.inr hl')

/-! ## Updates -/

namespace Workpiece.Formed

/-- A unit without entities. -/
theorem empty : Workpiece.empty.Formed schema root where
  entities _ _ h := by cases h
  handles _ _ _ _ h := by cases h
  rooted _ _ h := by cases h
  noted _ _ h := by cases h

/-- The entity at a location is as it has to be, if it has to be created as well. -/
theorem entity (hw : w.Formed schema root) (hl : schema.Composite l.typeName) :
    (w.entity l).Formed schema l := by
  unfold Workpiece.entity
  cases hf : w.entities.find? l with
  | none => exact .new hl
  | some e => exact hw.entities l e hf

/-- The fragments merged into the entity at a location are referenced. -/
theorem noted_entity (hw : w.Formed schema root) {name : Name}
    (hn : name ∈ (w.entity l).mergedFragments) : name ∈ w.referenced.keys := by
  unfold Workpiece.entity at hn
  cases hf : w.entities.find? l with
  | none => rw [hf] at hn; cases hn
  | some e => rw [hf] at hn; exact hw.noted l e hf name hn

/-- An entity is put where it belongs. -/
theorem put (hw : w.Formed schema root)
    (hl : l ∈ w.entities.keys ∨ Next root w.entities.keys l) (he : e.Formed schema l)
    (hh : ∀ key f l', e.fields.find? key = some f → f.child = some l' → l' ∈ w.entities.keys)
    (hn : ∀ name ∈ e.mergedFragments, name ∈ w.referenced.keys) :
    (w.put l e).Formed schema root := by
  have hkeys : (w.put l e).entities.keys =
      if l ∈ w.entities.keys then w.entities.keys else w.entities.keys ++ [l] :=
    Dict.keys_insert ..
  refine ⟨fun l' e' h => ?_, fun l' key f l'' hf hc => ?_, ?_, fun l' e' h => ?_⟩
  · rw [find?_put] at h
    split at h
    · next heq => cases h; exact heq ▸ he
    · exact hw.entities l' e' h
  · have hmem : l'' ∈ w.entities.keys := by
      rw [field?_put] at hf
      split at hf
      · exact hh key f l'' hf hc
      · exact hw.handles l' key f l'' hf hc
    rw [hkeys]
    split
    · exact hmem
    · exact List.mem_append_left _ hmem
  · rw [hkeys]
    split
    · exact hw.rooted
    · next hnew => exact hw.rooted.append (hl.resolve_left hnew)
  · rw [find?_put] at h
    split at h
    · cases h; exact hn
    · exact hw.noted l' e' h

/-- Noting a fragment does not change the entities. -/
theorem refer (hw : w.Formed schema root) (fragment : Fragment) :
    (w.refer fragment).Formed schema root :=
  ⟨hw.entities, hw.handles, hw.rooted, fun l e h name hn =>
    (Workpiece.mem_keys_refer ..).2 (.inl (hw.noted l e h name hn))⟩

end Workpiece.Formed

/-- An entity is there once it is put. -/
theorem Workpiece.mem_keys_put (w : Workpiece) (l : Location) (e : Entity) :
    l ∈ (w.put l e).entities.keys :=
  Dict.mem_keys_iff.2 ⟨e, by rw [find?_put, if_pos rfl]⟩

/-- An entity is found or created, and fragments that are referenced are merged into it. -/
theorem Fills.note (hw : w.Formed schema root)
    (hl : l ∈ w.entities.keys ∨ Next root w.entities.keys l) (hc : schema.Composite l.typeName)
    {names : OrderedSet Name} (hn : ∀ name ∈ names, name ∈ w.referenced.keys) :
    Fills schema root l w (w.put l { w.entity l with mergedFragments := names }) := by
  have hform := hw.entity hc
  refine ⟨hw.put hl ⟨hform.location, hform.rootType, hc, hform.keyed, hform.fits, hform.antichain,
    hform.apart⟩ (fun key f l' hf h => ?_) hn, w.mem_keys_put l _, .put (.put_of_fields rfl)⟩
  exact hw.handles l key f l' (by rw [Workpiece.field?_entity, ← hf]) h

/-- An entity is found or created. -/
theorem Fills.enter (hw : w.Formed schema root)
    (hl : l ∈ w.entities.keys ∨ Next root w.entities.keys l) (hc : schema.Composite l.typeName) :
    Fills schema root l w (w.put l (w.entity l)) :=
  Fills.note hw hl hc fun _ => hw.noted_entity

/-- A field that fits is merged. -/
theorem Merges.formed {f : EntityField} (h : Merges schema l f w w') (hw : w.Formed schema root)
    (hl : l ∈ w.entities.keys) (hf : f.Fits schema l)
    (hc : ∀ l', f.child = some l' → l' ∈ w.entities.keys) : w'.Formed schema root := by
  obtain ⟨e, he⟩ := Dict.mem_keys_iff.1 hl
  have hform := hw.entity (hw.entities l e he).composite
  obtain ⟨m, hm, rfl⟩ := h
  refine hw.put (.inl hl) (hm.formed hform hf) (fun key x l' hx hl' => ?_) fun _ => hw.noted_entity
  rw [Dict.find?_insert] at hx
  split at hx
  · cases hx
    exact hc l' (hm.child_eq hform hf ▸ hl')
  · exact hw.handles l key x l' (by rw [Workpiece.field?_entity, hx]) hl'

/-- A field that fits is merged after a nested walk, if there was one. -/
theorem Fills.merge {f : EntityField} (h : Merges schema l f w₁ w') (hf : f.Fits schema l)
    (hl : l ∈ w.entities.keys)
    (hn : f.child = none ∧ w₁ = w ∧ w.Formed schema root ∨
      f.child = some (l.append f.key f.type.innermostName) ∧
        Fills schema root (l.append f.key f.type.innermostName) w w₁) :
    Fills schema root l w w' := by
  rcases hn with ⟨hc, rfl, hw⟩ | ⟨hc, hn⟩
  · exact ⟨h.formed hw hl hf (by simp [hc]), h.grows.keys l hl, h.settles⟩
  · have hl₁ := hn.settles.keys l hl
    refine ⟨h.formed hn.formed hl₁ hf ?_, h.grows.keys l hl₁, hn.settles.merge h⟩
    intro l' hl'
    rw [hc] at hl'
    cases hl'
    exact hn.mem

/-- A loop whose steps leave well-formed units leaves one. A step may use that the unit has grown
since the loop was started. -/
theorem Chain.fills {α : Type} {R : α → Workpiece → Workpiece → Prop} {steps : List α}
    (h : Chain R steps w₁ w') (hstart : Fills schema root l w w₁)
    (step : ∀ a ∈ steps, ∀ v v', R a v v' → v.Formed schema root → l ∈ v.entities.keys →
      Grows schema l w₁ v → Fills schema root l v v') : Fills schema root l w w' := by
  induction steps generalizing w₁ with
  | nil => exact h ▸ hstart
  | cons a steps ih =>
    obtain ⟨v, ha, hrest⟩ := h
    have hfirst := step a (.head _) w₁ v ha hstart.formed hstart.mem (.refl w₁)
    refine ih hrest ⟨hfirst.formed, hfirst.mem, hstart.settles.trans hfirst.settles⟩ ?_
    intro b hb v₁ v₂ hstep hw hl hg
    exact step b (List.mem_cons_of_mem _ hb) v₁ v₂ hstep hw hl (hfirst.settles.toGrows.trans hg)

end

end EntityGraph
