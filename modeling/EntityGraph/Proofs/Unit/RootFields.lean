import EntityGraph.Proofs.Schema.BuiltSchema
import EntityGraph.Proofs.Walk.Filled

/-!
# Root entities are exact

For each object type that the root of a unit can have, the root entity has the response keys of the
collected fields, and no others. A walk at a location adds to the entity there what its fields cover
and what the root entities of copied fragments cover, each restricted to its condition; nested walks
do not touch it. So a field that is merged covers (`Merges.covers`), a copy covers
(`Copies.covers`) and a walk over selections covers (`Visits.covers`) exactly what it should, at the
location that it starts at. Main statement: `Yields.root_exact`.
-/

namespace EntityGraph

open Conditions (Cover)

section
variable (schema : Schema)

/-- The entity at a location has a field with the response key `k` in responses of the object type
`o`. -/
def Storage.Covers (entities : Storage) (l : Location) (k o : Name) : Prop :=
  ∃ key f, entities.field? l key = some f ∧ key.key = k ∧ Cover schema f.conditions o

/-- The root entity of the unit has the response keys of the collected fields, for each object type
that the root can have. -/
def CompiledUnit.Exact (document : Document) (u : CompiledUnit) : Prop :=
  ∀ k o, schema.Possible u.rootType o →
    (u.entities.Covers schema u.root k o ↔
      ∃ g, Gathers schema document o u.selections g ∧ g.key = k)

end

section
variable {schema : Schema} {document : Document} {location target source : Location}
  {w w₁ w' : Workpiece} {k o condition : Name}

/-- Where there is no entity nothing is covered, as by an entity without fields. -/
theorem Workpiece.covers_entity :
    w.entities.Covers schema location k o ↔ (w.entity location).Covers schema k o := by
  unfold Storage.Covers Entity.Covers
  simp only [Workpiece.field?_entity]

/-- What an entity covers, it covers by one of its fields. -/
theorem Storage.covers_iff {entities : Storage} {e : Entity}
    (he : entities.find? location = some e) (hform : e.Formed schema location) :
    entities.Covers schema location k o ↔
      ∃ f ∈ e.fields.values, f.key = k ∧ Cover schema f.conditions o := by
  constructor
  · rintro ⟨key, f, hf, hk, ho⟩
    obtain ⟨e', he', hkey⟩ := Storage.field?_eq_some_iff.1 hf
    cases he.symm.trans he'
    refine ⟨f, Dict.mem_values_iff.2 ⟨key, hkey⟩, ?_, ho⟩
    rw [← hk, ← hform.keyed key f hkey]
    rfl
  · rintro ⟨f, hf, hk, ho⟩
    obtain ⟨key, hkey⟩ := Dict.mem_values_iff.1 hf
    refine ⟨key, f, Storage.field?_eq_some_iff.2 ⟨e, he, hkey⟩, ?_, ho⟩
    rw [← hform.keyed key f hkey]
    exact hk

/-- A loop covers what was covered before and what its steps add. -/
theorem Chain.exact {α : Type} {R : α → Workpiece → Workpiece → Prop} {C : Workpiece → Prop}
    {D : α → Prop} : ∀ {l : List α} {w w' : Workpiece},
      (∀ a ∈ l, ∀ w w', R a w w' → (C w' ↔ C w ∨ D a)) → Chain R l w w' →
      (C w' ↔ C w ∨ ∃ a ∈ l, D a)
  | [], _, _, _, h => by cases h; simp
  | a :: l, w, w', step, ⟨w₁, h₁, h₂⟩ => by
    have hrest := h₂.exact fun b hb => step b (List.mem_cons_of_mem _ hb)
    rw [hrest, step a (.head _) w w₁ h₁]
    simp [or_assoc]

/-- An entity is replaced by one with the same fields. -/
theorem Workpiece.covers_put {e : Entity} (h : e.fields = (w.entity location).fields) :
    (w.put location e).entities.Covers schema location k o ↔
      w.entities.Covers schema location k o := by
  rw [covers_entity, covers_entity, entity_put, if_pos rfl, Entity.Covers, Entity.Covers, h]

/-- A walk below a field does not change what is covered. -/
theorem Grows.covers {key type : Name} (h : Grows schema (location.append key type) w w') :
    w'.entities.Covers schema location k o ↔ w.entities.Covers schema location k o := by
  rw [Workpiece.covers_entity, Workpiece.covers_entity, h.entity_eq]

/-- A field that is merged adds what it covers. -/
theorem Merges.covers {f : EntityField} (h : Merges schema location f w w') :
    w'.entities.Covers schema location k o ↔
      w.entities.Covers schema location k o ∨ f.key = k ∧ Cover schema f.conditions o := by
  obtain ⟨m, hm, rfl⟩ := h
  rw [Workpiece.covers_entity, Workpiece.covers_entity, Workpiece.entity_put, if_pos rfl]
  exact hm.covers

/-! ## Copying -/

/-- A field that is copied adds what it covers under the condition. -/
theorem CopiesField.covers (hs : schema.Coherent)
    {nested : (target source : Location) → Name → Workpiece → Workpiece → Prop}
    (hn : ∀ target source condition w w', nested target source condition w w' →
      Grows schema target w w')
    {f : EntityField} (hf : f.Fits schema source)
    (h : CopiesField schema nested target condition f w w') :
    w'.entities.Covers schema target k o ↔ w.entities.Covers schema target k o ∨
      f.key = k ∧ Cover schema f.conditions o ∧ schema.Possible condition o := by
  cases h with
  | @skip cs hcs he =>
    have hcover := (narrowConditions_gives hs hf.composite hcs).cover o
    have hnone : ¬ Cover schema cs o := fun ⟨c, hc, _⟩ =>
      List.ne_nil_of_mem (OrderedSet.mem_toList.2 hc) (List.isEmpty_iff.1 he)
    refine ⟨.inl, fun h => h.resolve_right fun ⟨_, hc⟩ => hnone (hcover.2 hc)⟩
  | leaf hcs _ _ hm =>
    rw [hm.covers, (narrowConditions_gives hs hf.composite hcs).cover o]
    rfl
  | node hcs _ _ hc hm =>
    rw [hm.covers, (hn _ _ _ _ _ hc).covers, (narrowConditions_gives hs hf.composite hcs).cover o]
    rfl

/-- A copy adds what the source covers under the condition. -/
theorem Copies.covers (hs : schema.Coherent) {fragment : Fragment}
    (hF : fragment.unit.Formed schema) {depth : Nat} (hr : fragment.Ready depth source)
    (h : Copies schema fragment depth target source condition w w') :
    w'.entities.Covers schema target k o ↔ w.entities.Covers schema target k o ∨
      fragment.entities.Covers schema source k o ∧ schema.Possible condition o := by
  cases depth with
  | zero => exact absurd rfl (hr.ne_zero hF)
  | succ depth =>
    obtain ⟨e, he⟩ := Dict.mem_keys_iff.1 hr.mem
    have hform := hF.formed.entities source e he
    unfold Copies at h
    rw [he] at h
    have hloop := Chain.exact (C := fun w => w.entities.Covers schema target k o)
      (D := fun f => f.key = k ∧ Cover schema f.conditions o ∧ schema.Possible condition o) ?_ h
    · rw [hloop, Workpiece.covers_put (by rfl), Storage.covers_iff he hform]
      refine or_congr_right ⟨?_, ?_⟩
      · rintro ⟨f, hf, hk, ho, hc⟩
        exact ⟨⟨f, hf, hk, ho⟩, hc⟩
      · rintro ⟨⟨f, hf, hk, ho⟩, hc⟩
        exact ⟨f, hf, hk, ho, hc⟩
    · intro f hf w₁ w₂ hcopy
      obtain ⟨key, hkey⟩ := Dict.mem_values_iff.1 hf
      exact hcopy.covers hs (fun _ _ _ _ _ => Copies.grows) (hform.fits key f hkey)

/-! ## Visiting -/

/-- A unit that may be copied: it is well-formed, and its root entity is exact. -/
def CompiledUnit.FormedExact (schema : Schema) (document : Document) (u : CompiledUnit) : Prop :=
  u.Formed schema ∧ u.Exact schema document

/-- A normal selection adds the response keys of the fields that are collected from it. -/
theorem VisitsSelection.covers (hs : schema.Coherent)
    {nested : Location → Name → List Selection → Workpiece → Workpiece → Prop}
    (hn : ∀ location condition selections w w', nested location condition selections w w' →
      Grows schema location w w')
    {s : NormalSelection} (hi : s.Inside schema condition)
    (h : VisitsSelection schema (Spreadable document (CompiledUnit.FormedExact schema document))
      nested location s w w') :
    w'.entities.Covers schema location k o ↔ w.entities.Covers schema location k o ∨
      ∃ g, s.Contributes schema document o g ∧ g.key = k := by
  have hsingle : ∀ {key name condition : Name} {type child},
      Cover schema (EntityField.single key name type child condition).conditions o ↔
        schema.Possible condition o := by
    intro key name condition type child
    simp [EntityField.single, Cover, ← OrderedSet.mem_toList]
  cases h with
  | leaf _ _ _ hm =>
    rw [hm.covers, hsingle]
    simp [NormalSelection.Contributes, EntityField.single, FieldSelection.key, and_comm]
  | node _ _ _ hv hm =>
    rw [hm.covers, (hn _ _ _ _ _ hv).covers, hsingle]
    simp [NormalSelection.Contributes, EntityField.single, FieldSelection.key, and_comm]
  | @spread name c place fragment cs _ _ hg hcs hcopies =>
    obtain ⟨hdef, hF, hexact⟩ := hg
    have hm := LookupM.intersect_gives hs hi.1 hcs
    have hloop := Chain.exact (C := fun w => w.entities.Covers schema location k o)
      (D := fun c => fragment.entities.Covers schema fragment.rootLocation k o ∧
        schema.Possible c o) (fun c _ w₁ w₂ hcopy => hcopy.covers hs hF hF.ready) hcopies
    rw [hloop, Workpiece.entities_refer]
    refine or_congr_right ⟨?_, ?_⟩
    · rintro ⟨c', hc', hcov, ho⟩
      have hboth := (hm.possible o).1 ⟨c', hc', ho⟩
      obtain ⟨g, hg, hk⟩ := (hexact k o hboth.2).1 hcov
      exact ⟨g, ⟨hboth.1, fragment.definition, (hdef _).2 rfl, hboth.2, hg⟩, hk⟩
    · rintro ⟨g, ⟨ho, d, hd, hod, hg⟩, hk⟩
      cases (hdef d).1 hd
      obtain ⟨c', hc', ho'⟩ := (hm.possible o).2 ⟨ho, hod⟩
      exact ⟨c', hc', (hexact k o hod).2 ⟨g, hg, hk⟩, ho'⟩
  | unreachable => simp [NormalSelection.Contributes]

/-- Selections add the response keys of the fields that are collected from them. -/
theorem Visits.covers (hs : schema.Coherent) {selections : List Selection}
    (hc : schema.Composite condition) (ho : schema.Possible condition o)
    (h : Visits schema (Spreadable document (CompiledUnit.FormedExact schema document))
      (Selection.heightAll selections) location condition selections w w') :
    w'.entities.Covers schema location k o ↔ w.entities.Covers schema location k o ∨
      ∃ g, Gathers schema document o selections g ∧ g.key = k := by
  cases hh : Selection.heightAll selections with
  | zero =>
    rw [hh] at h
    cases Selection.eq_nil_of_heightAll hh
    cases h
    rw [Workpiece.covers_put rfl]
    simp [not_gathers_nil]
  | succ height =>
    rw [hh] at h
    obtain ⟨normal, hnormal, hchain⟩ := h
    have hn : Normal schema document condition selections normal :=
      Selection.normalizeAll_normal hs selections hc hnormal
    have hloop := hchain.exact (C := fun w => w.entities.Covers schema location k o)
      (D := fun s => ∃ g, s.Contributes schema document o g ∧ g.key = k)
      fun s hm w₁ w₂ hv => hv.covers hs (fun _ _ _ _ _ => Visits.grows) (hn.inside s hm)
    rw [hloop, Workpiece.covers_put rfl]
    refine or_congr_right ⟨fun ⟨s, hm, g, hg, hk⟩ => ⟨g, (hn.gathers o g ho).2 ⟨s, hm, hg⟩, hk⟩,
      fun ⟨g, hg, hk⟩ => ?_⟩
    obtain ⟨s, hm, hg⟩ := (hn.gathers o g ho).1 hg
    exact ⟨s, hm, g, hg, hk⟩

end

/-! ## Units -/

section
variable {schema : Schema} {document : Document} {u : CompiledUnit}

/-- A unit is exact if the fragments that it spreads are. -/
theorem Walked.exact (hs : schema.Coherent)
    (h : Walked schema document (CompiledUnit.FormedExact schema document) u) :
    u.FormedExact schema document := by
  refine ⟨h.formed hs fun _ h => h.1, fun k o ho => ?_⟩
  have hcover := h.visits.covers hs h.composite ho (k := k)
  rw [hcover]
  refine ⟨fun h => h.resolve_left ?_, .inr⟩
  rintro ⟨key, f, hf, -⟩
  cases hf

end

/-- For each object type that the root of a unit can have, the root entity has fields with exactly
the response keys of the collected fields. -/
theorem Yields.root_exact {schema : Schema} {document : Document} {u : CompiledUnit}
    (hs : schema.Built) (h : Yields schema document u) :
    ∃ e, u.entities.find? u.root = some e ∧
      ∀ o, schema.Possible u.rootType o → ∀ k,
        ((∃ f ∈ e.fields.values, f.key = k ∧ ∃ c ∈ f.conditions, schema.Possible c o) ↔
          ∃ g, Gathers schema document o u.selections g ∧ g.key = k) := by
  obtain ⟨hu, hexact⟩ := h.induction hs.coherent fun _ hw => hw.exact hs.coherent
  obtain ⟨e, he⟩ := Dict.mem_keys_iff.1 hu.mem
  have hform := hu.formed.entities u.root e he
  exact ⟨e, he, fun o ho k => (Storage.covers_iff he hform).symm.trans (hexact k o ho)⟩

/-- The root entity of the small operation has a field with the key of the one selected field. -/
theorem Sample.unit_root_exact : Sample.schema.Possible Sample.unit.rootType "Query" ∧
    ∃ e, Sample.unit.entities.find? Sample.unit.root = some e ∧
      ∃ f ∈ e.fields.values, f.key = "node" ∧
        ∃ c ∈ f.conditions, Sample.schema.Possible c "Query" := by
  have ho : Sample.schema.Possible Sample.unit.rootType "Query" := by decide +kernel
  obtain ⟨e, he, h⟩ := Yields.root_exact Sample.built Sample.yields
  exact ⟨ho, e, he, (h "Query" ho "node").2 ⟨_, Sample.gathers_node, rfl⟩⟩

end EntityGraph
