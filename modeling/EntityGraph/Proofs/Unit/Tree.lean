import EntityGraph.Proofs.Schema.BuiltSchema
import EntityGraph.Proofs.Walk.Filled

/-!
# The entities of a unit are a tree

The storage of a compiled unit starts with the root. Every other entity is led to by a field of the
entity at the location one step back, which was created before it, and every field of a composite
type leads to an entity (`CompiledUnit.Tree`). So the entities are exactly those that can be reached
from the root by following fields, and no way through them is longer than there are entities. In
particular a look-up by the root or by the child of a field always finds its entity, also while a
fragment is copied: a copy that would fail where one is missing does the same as the copy itself
(`copyOrFail`). Main statement: `Yields.storage_tree`.
-/

namespace EntityGraph

/-- The location one step back. -/
def Location.parent (l : Location) : Location := { l with path := l.path.dropLast }

@[simp] theorem Location.parent_append (l : Location) (key type : Name) :
    (l.append key type).parent = l := by
  simp [Location.parent, Location.append]

/-- The location is led to by fields, one after the other, from the root on. -/
inductive Reaches (entities : Storage) (root : Location) : Location → Prop
  | root : Reaches entities root root
  | field {l l' : Location} {e : Entity} {key : FieldKey} {f : EntityField} :
      Reaches entities root l → entities.find? l = some e → e.fields.find? key = some f →
      f.child = some l' → Reaches entities root l'

section
variable (schema : Schema) (u : CompiledUnit)

/-- The entities of the unit are a tree, and each of them is in its place. -/
structure CompiledUnit.Tree : Prop where
  root : u.root = ⟨[], u.source⟩
  first : u.entities.keys.head? = some u.root
  distinct : u.entities.keys.Nodup
  location : ∀ l e, u.entities.find? l = some e → e.location = l ∧ l.source = u.source
  rootType : ∀ l e, u.entities.find? l = some e →
    e.rootType = l.typeName ∧ schema.Composite e.rootType
  keyed : ∀ l e key f, u.entities.find? l = some e → e.fields.find? key = some f →
    key = ⟨f.key, f.type⟩
  /-- The fields of composite types, and no others, lead somewhere. -/
  handle : ∀ l e key f, u.entities.find? l = some e → e.fields.find? key = some f →
    (f.child.isSome = true ↔ schema.Composite f.type.innermostName)
  child : ∀ l e key f l', u.entities.find? l = some e → e.fields.find? key = some f →
    f.child = some l' →
    l' = l.append f.key f.type.innermostName ∧ ∃ e', u.entities.find? l' = some e'
  /-- What is not the root is led to from the location one step back, which came earlier. -/
  parent : ∀ (i : Nat) l, u.entities.keys[i]? = some l → l ≠ u.root →
    ∃ j < i, u.entities.keys[j]? = some l.parent ∧
      ∃ e key f, u.entities.find? l.parent = some e ∧ e.fields.find? key = some f ∧
        f.child = some l
  reached : ∀ l, l ∈ u.entities.keys ↔ Reaches u.entities u.root l
  depth : ∀ l ∈ u.entities.keys, l.path.length < u.entities.size

end

/-- Copies as `copyWithin` does, but fails with `e` where that stops short: at the end of the bound,
and where there is no entity to copy. -/
def copyOrFail {schema : Schema} (e : BuildError) (fragment : Fragment) :
    (depth : Nat) → (target source : Location) → Name → UnitM schema Unit
  | 0, _, _, _ => throw e
  | depth + 1, target, source, condition => do
    match fragment.entities.find? source with
    | none => throw e
    | some entity =>
      let known ← UnitM.entityAt target
      UnitM.putEntity target { known with
        mergedFragments :=
          (known.mergedFragments.insert fragment.name).insertAll entity.mergedFragments.toList }
      entity.fields.values.forM (copyField (copyOrFail e fragment depth) target condition)

/-! ## Ways through a storage -/

/-- All locations are of the unit of the root. -/
theorem Rooted.source_eq {root l : Location} {keys : List Location} (h : Rooted root keys) {i : Nat}
    (hi : keys[i]? = some l) : l.source = root.source := by
  induction i using Nat.strongRecOn generalizing l with
  | ind i ih =>
    rcases h i l hi with ⟨-, rfl⟩ | ⟨j, hj, p, key, type, hp, rfl⟩
    · rfl
    · rw [← ih j hj hp]
      rfl

namespace CompiledUnit.Formed

variable {schema : Schema} {u : CompiledUnit} (hu : u.Formed schema)
include hu

/-- The root is the first location. -/
theorem first : u.entities.keys.head? = some u.root := by
  cases hk : u.entities.keys with
  | nil =>
    have hmem := hu.mem
    rw [hk] at hmem
    cases hmem
  | cons l rest =>
    have hzero : u.entities.keys[0]? = some l := by rw [hk]; rfl
    rcases hu.formed.rooted 0 l hzero with ⟨-, rfl⟩ | ⟨j, hj, -⟩
    · rfl
    · omega

/-- What is not the root is led to from the location one step back, which came earlier. -/
theorem parent {i : Nat} {l : Location} (hi : u.entities.keys[i]? = some l) (hl : l ≠ u.root) :
    ∃ j < i, u.entities.keys[j]? = some l.parent ∧
      ∃ e key f, u.entities.find? l.parent = some e ∧ e.fields.find? key = some f ∧
        f.child = some l := by
  have hmem := List.mem_of_getElem? hi
  rcases hu.formed.rooted i l hi with ⟨-, hroot⟩ | ⟨j, hj, p, k, t, hp, hlp⟩
  · exact absurd hroot hl
  obtain ⟨p', key, f, hf, hlp'⟩ := (hu.attached l hmem).resolve_left hl
  have hparent : p' = l.parent := by rw [hlp', Location.parent_append]
  obtain ⟨e, he, hfind⟩ := Storage.field?_eq_some_iff.1 hf
  refine ⟨j, hj, by rw [hlp, Location.parent_append, hp], e, key, f, hparent ▸ he, hfind, ?_⟩
  have hform := hu.formed.entities p' e he
  obtain ⟨e', he'⟩ := Dict.mem_keys_iff.1 hmem
  have hcomp := (hu.formed.entities l e' he').composite
  rw [hlp', Location.typeName_append] at hcomp
  rw [(hform.fits key f hfind).child, hform.keyed key f hfind, Schema.handle?_eq_some_iff]
  exact ⟨hcomp, hlp'⟩

/-- The locations are those that fields lead to from the root on. -/
theorem reached (l : Location) : l ∈ u.entities.keys ↔ Reaches u.entities u.root l := by
  constructor
  · intro hl
    obtain ⟨i, hi⟩ := List.getElem?_of_mem hl
    clear hl
    induction i using Nat.strongRecOn generalizing l with
    | ind i ih =>
      by_cases hroot : l = u.root
      · exact hroot ▸ .root
      · obtain ⟨j, hj, hp, e, key, f, he, hf, hc⟩ := hu.parent hi hroot
        exact .field (ih j hj l.parent hp) he hf hc
  · intro h
    induction h with
    | root => exact hu.mem
    | field _ he hf hc =>
      exact hu.formed.handles _ _ _ _ (Storage.field?_eq_some_iff.2 ⟨_, he, hf⟩) hc

/-- A well-formed unit is a tree. -/
theorem tree : u.Tree schema where
  root := hu.root
  first := hu.first
  distinct := u.entities.nodup_keys
  location l e he := by
    obtain ⟨i, hi⟩ := List.getElem?_of_mem (Dict.mem_keys_iff.2 ⟨e, he⟩)
    refine ⟨(hu.formed.entities l e he).location, ?_⟩
    rw [hu.formed.rooted.source_eq hi, hu.root]
  rootType l e he := by
    have hform := hu.formed.entities l e he
    exact ⟨hform.rootType, hform.rootType ▸ hform.composite⟩
  keyed l e key f he hf := ((hu.formed.entities l e he).keyed key f hf).symm
  handle l e key f he hf := by
    have hfits := (hu.formed.entities l e he).fits key f hf
    rw [hfits.child, Option.isSome_iff_exists]
    simp only [Schema.handle?_eq_some_iff, exists_and_left, exists_eq, and_true]
    rfl
  child l e key f l' he hf hc := by
    have hfits := (hu.formed.entities l e he).fits key f hf
    have hmem := hu.formed.handles l key f l' (Storage.field?_eq_some_iff.2 ⟨e, he, hf⟩) hc
    rw [hfits.child, Schema.handle?_eq_some_iff] at hc
    exact ⟨hc.2, Dict.mem_keys_iff.1 hmem⟩
  parent i l hi hl := hu.parent hi hl
  reached := hu.reached
  depth l hl := by
    have hlt : l.path.length < u.entities.keys.length :=
      hu.formed.rooted.length_path_lt (by rw [hu.root]) hl
    rwa [Dict.length_keys] at hlt

end CompiledUnit.Formed

/-! ## Copying -/

section
variable {schema : Schema} {fragment : Fragment}

/-- A field is copied in the same way if the entity that it leads to is. -/
theorem copyField_congr {nested nested' : (target source : Location) → Name → UnitM schema Unit}
    {target : Location} {condition : Name} {f : EntityField}
    (h : ∀ source, f.child = some source → ∀ target condition,
      nested target source condition = nested' target source condition) :
    copyField nested target condition f = copyField nested' target condition f := by
  unfold copyField
  cases hf : f.child with
  | none => rfl
  | some source => simp only [h source hf]

/-- A loop does the same if each of its steps does. -/
theorem forM_congr {α : Type} {step step' : α → UnitM schema Unit} :
    ∀ {l : List α}, (∀ a ∈ l, step a = step' a) → l.forM step = l.forM step'
  | [], _ => rfl
  | a :: l, h => by
    have hrest := forM_congr fun b hb => h b (List.mem_cons_of_mem a hb)
    unfold List.forM
    rw [h a (.head _), hrest]

/-- A copy of a well-formed fragment never stops short. -/
theorem copyOrFail_eq (hF : fragment.unit.Formed schema) (e : BuildError) {depth : Nat}
    {target source : Location} {condition : Name} (hr : fragment.Ready depth source) :
    (copyOrFail e fragment depth target source condition : UnitM schema Unit) =
      copyWithin fragment depth target source condition := by
  induction depth generalizing target source condition with
  | zero => exact absurd rfl (hr.ne_zero hF)
  | succ depth ih =>
    obtain ⟨entity, he⟩ := Dict.mem_keys_iff.1 hr.mem
    unfold copyOrFail copyWithin
    rw [he]
    have hloop : entity.fields.values.forM (copyField (copyOrFail e fragment depth) target
        condition) = (entity.fields.values.forM (copyField (copyWithin fragment depth) target
          condition) : UnitM schema Unit) := by
      refine forM_congr fun f hf => copyField_congr fun source hs target condition => ?_
      obtain ⟨key, hkey⟩ := Dict.mem_values_iff.1 hf
      exact ih (hr.child hF (Storage.field?_eq_some_iff.2 ⟨entity, he, hkey⟩) hs).1
    simp only [hloop]

end

/-- The entities of every unit are a tree, and if the unit is a fragment, copying it never misses an
entity. -/
theorem Yields.storage_tree {schema : Schema} {document : Document} {u : CompiledUnit}
    (hs : schema.Built) (h : Yields schema document u) :
    u.Tree schema ∧
      ∀ (fragment : Fragment), fragment.unit = u → ∀ e target condition,
        (copyOrFail e fragment fragment.entities.size target fragment.rootLocation condition :
            UnitM schema Unit) =
          copyFragment fragment target condition := by
  have hu := h.formed hs.coherent
  refine ⟨hu.tree, fun fragment hf e target condition => ?_⟩
  subst hf
  exact copyOrFail_eq hu e hu.ready

/-- The small operation has four entities. -/
theorem Sample.unit_storage_tree : Sample.unit.entities.size = 4 ∧ Sample.unit.Tree Sample.schema :=
  ⟨by decide +kernel, (Yields.storage_tree Sample.built Sample.yields).1⟩

end EntityGraph
