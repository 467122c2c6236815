import EntityGraph.Proofs.Schema.BuiltSchema
import EntityGraph.Proofs.Walk.Filled

/-!
# One response shape for each object type

What the fields of an entity have to do with one another, in terms of the questions that a schema
answers. A field is in the response under at least one condition, all of them lie within the type of
the entity, and none within another. Two fields of one response key have different types and
conditions that do not overlap, so for a given object type the entity has at most one field of that
key (`Entity.Shaped`). Main statement: `Yields.one_shape`, for all entities of all units, together
with the fact that merged fragments are referenced ones.
-/

namespace EntityGraph

open LookupM (Answers)
open Conditions (Cover)

/-- The fields of the entity give one response shape to each object type. -/
structure Entity.Shaped (schema : Schema) (e : Entity) : Prop where
  nonempty : ∀ f ∈ e.fields.values, f.conditions.isEmpty = false
  composite : ∀ f ∈ e.fields.values, ∀ c ∈ f.conditions, schema.Composite c
  within : ∀ f ∈ e.fields.values, ∀ c ∈ f.conditions,
    Answers (LookupM.within c e.rootType : LookupM schema LookupError Bool) true
  antichain : ∀ f ∈ e.fields.values, ∀ c ∈ f.conditions, ∀ c' ∈ f.conditions, c ≠ c' →
    Answers (LookupM.within c c' : LookupM schema LookupError Bool) false
  apart : ∀ f ∈ e.fields.values, ∀ f' ∈ e.fields.values, f.key = f'.key → f ≠ f' →
    f.type ≠ f'.type ∧ ∀ c ∈ f.conditions, ∀ c' ∈ f'.conditions,
      Answers (LookupM.overlap c c' : LookupM schema LookupError Bool) false
  single : ∀ f ∈ e.fields.values, ∀ f' ∈ e.fields.values, f.key = f'.key →
    ∀ o, Cover schema f.conditions o → Cover schema f'.conditions o → f = f'

section
variable {schema : Schema} {l : Location} {e : Entity}

/-- Fields of one response key that cover the same object type are one field. -/
theorem Entity.Formed.eq_of_cover (h : e.Formed schema l) {key key' : FieldKey}
    {f f' : EntityField} (hf : e.fields.find? key = some f) (hf' : e.fields.find? key' = some f')
    (hk : key.key = key'.key) {o : Name} (ho : Cover schema f.conditions o)
    (ho' : Cover schema f'.conditions o) : key = key' ∧ f = f' := by
  by_cases hkey : key = key'
  · subst hkey
    rw [hf] at hf'
    cases hf'
    exact ⟨rfl, rfl⟩
  · obtain ⟨c, hc, hco⟩ := ho
    obtain ⟨c', hc', hco'⟩ := ho'
    exact absurd (.inr ⟨o, hco, hco'⟩) (h.apart key f key' f' hf hf' hk hkey c hc c' hc')

/-- A well-formed entity gives one response shape to each object type. -/
theorem Entity.Formed.shaped (h : e.Formed schema l) : e.Shaped schema where
  nonempty f hf := by
    obtain ⟨key, hkey⟩ := Dict.mem_values_iff.1 hf
    obtain ⟨c, hc⟩ := (h.fits key f hkey).nonempty
    rw [OrderedSet.isEmpty, List.isEmpty_eq_false_iff]
    exact List.ne_nil_of_mem (OrderedSet.mem_toList.2 hc)
  composite f hf c hc := by
    obtain ⟨key, hkey⟩ := Dict.mem_values_iff.1 hf
    exact (h.fits key f hkey).composite c hc
  within f hf c hc := by
    obtain ⟨key, hkey⟩ := Dict.mem_values_iff.1 hf
    have hfits := h.fits key f hkey
    rw [h.rootType]
    refine LookupM.within_answers (hfits.composite c hc) h.composite ?_
    simpa using hfits.within c hc
  antichain f hf c hc c' hc' hne := by
    obtain ⟨key, hkey⟩ := Dict.mem_values_iff.1 hf
    have hcomp := (h.fits key f hkey).composite
    refine LookupM.within_answers (hcomp c hc) (hcomp c' hc') ?_
    simpa using fun hw => hne (h.antichain key f hkey c hc c' hc' hw)
  apart f hf f' hf' hk hne := by
    obtain ⟨key, hkey⟩ := Dict.mem_values_iff.1 hf
    obtain ⟨key', hkey'⟩ := Dict.mem_values_iff.1 hf'
    have hfk := h.keyed key f hkey
    have hfk' := h.keyed key' f' hkey'
    have hne' : key ≠ key' := by
      rintro rfl
      exact hne (Option.some.inj (hkey.symm.trans hkey'))
    refine ⟨fun ht => hne' ?_, fun c hc c' hc' => ?_⟩
    · rw [← hfk, ← hfk', EntityField.fieldKey, EntityField.fieldKey, hk, ht]
    · have hover := h.apart key f key' f' hkey hkey' (by rw [← hfk, ← hfk']; exact hk) hne'
      refine LookupM.overlap_answers ((h.fits key f hkey).composite c hc)
        ((h.fits key' f' hkey').composite c' hc') ?_
      simpa using hover c hc c' hc'
  single f hf f' hf' hk o ho ho' := by
    obtain ⟨key, hkey⟩ := Dict.mem_values_iff.1 hf
    obtain ⟨key', hkey'⟩ := Dict.mem_values_iff.1 hf'
    have hkk : key.key = key'.key := by
      rw [← h.keyed key f hkey, ← h.keyed key' f' hkey']
      exact hk
    exact (h.eq_of_cover hkey hkey' hkk ho ho').2

end

/-- Every entity of every unit gives one response shape to each object type, and the fragments
merged into it are among those that the unit references. -/
theorem Yields.one_shape {schema : Schema} {document : Document} {u : CompiledUnit}
    (hs : schema.Built) (h : Yields schema document u) :
    ∀ l e, u.entities.find? l = some e →
      e.Shaped schema ∧ ∀ name ∈ e.mergedFragments, name ∈ u.referenced.keys := by
  intro l e he
  have hu := h.formed hs.coherent
  exact ⟨(hu.formed.entities l e he).shaped, hu.formed.noted l e he⟩

/-- The small operation references the fragment that it spreads. -/
theorem Sample.unit_one_shape : Sample.unit.referenced.keys = ["Parts"] ∧
    ∀ l e, Sample.unit.entities.find? l = some e →
      e.Shaped Sample.schema ∧ ∀ name ∈ e.mergedFragments, name ∈ Sample.unit.referenced.keys :=
  ⟨by decide +kernel, Yields.one_shape Sample.built Sample.yields⟩

end EntityGraph
