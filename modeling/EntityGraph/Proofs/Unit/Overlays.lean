import EntityGraph.Proofs.Entity.Leading
import EntityGraph.Proofs.Unit.Origins
import EntityGraph.Proofs.Walk.Formed

/-!
# What merging adds to a unit

Merging fields into an entity adds what they cover and takes nothing away: what was there keeps its
place, its name and its link, and a condition gives way only to one that prevails over it
(`Entity.Receives`). A field that the entity has already changes nothing (`Entity.Absorbs`). The
same for a unit, where fields are merged into the entities at some paths below a location and
fragments are noted there, is `Workpiece.Overlaid`; such steps follow one another
(`Workpiece.Overlaid.trans`), and all other entities stay as they are.
-/

namespace EntityGraph

open LookupM (Gives)
open Conditions (Cover)

/-! ## Keys after an insertion -/

namespace Dict

variable {κ ν : Type} [DecidableEq κ]

/-- A new key comes last. -/
theorem keys_prefix_insert (d : Dict κ ν) (k : κ) (v : ν) : d.keys <+: (d.insert k v).keys := by
  rw [keys_insert]
  split
  · exact List.prefix_refl _
  · exact List.prefix_append ..

/-- The keys are those that were there, and the new one. -/
theorem mem_keys_insert {d : Dict κ ν} {k k' : κ} {v : ν} :
    k' ∈ (d.insert k v).keys ↔ k' ∈ d.keys ∨ k' = k := by
  rw [keys_insert]
  split
  · next hmem => simpa using fun heq => heq ▸ hmem
  · simp

end Dict

/-! ## Conditions that stay, in any state -/

namespace Conditions

variable {schema : Schema} {c : Name} {before after : OrderedSet Name}

/-- Inserting a condition leaves one that prevails over it, and one over each that was there. -/
theorem insert_prevails (h : Gives (insert before c : LookupM schema LookupError _) after) :
    (∃ e ∈ after, schema.Prevails e c) ∧ ∀ x ∈ before, ∃ e ∈ after, schema.Prevails e x := by
  rcases insert_gives h with ⟨rfl, hcovered⟩ | ⟨hnew, hmem⟩
  · exact ⟨hcovered, fun x hx => ⟨x, hx, .refl x⟩⟩
  · have hself : c ∈ after := (hmem c).2 (.inr rfl)
    refine ⟨⟨c, hself, .refl c⟩, fun x hx => ?_⟩
    by_cases hw : schema.Within x c
    · exact ⟨c, hself, .of_within hw (hnew x hx)⟩
    · exact ⟨x, (hmem x).2 (.inl ⟨hx, hw⟩), .refl x⟩

/-- Inserting a condition that another one prevails over changes nothing. -/
theorem insert_eq_of_prevails (h : Gives (insert before c : LookupM schema LookupError _) after)
    {e : Name} (he : e ∈ before) (hp : schema.Prevails e c) : after = before := by
  rcases insert_gives h with ⟨rfl, -⟩ | ⟨hnew, -⟩
  · rfl
  · exact absurd hp (hnew e he)

/-- Inserting conditions leaves ones that prevail over them, and over each that was there. -/
theorem insertAll_prevails {new : List Name}
    (h : Gives (insertAll before new : LookupM schema LookupError _) after) :
    (∀ x ∈ new, ∃ e ∈ after, schema.Prevails e x) ∧
      ∀ x ∈ before, ∃ e ∈ after, schema.Prevails e x := by
  induction new generalizing before with
  | nil =>
    cases h.of_pure
    exact ⟨nofun, fun x hx => ⟨x, hx, .refl x⟩⟩
  | cons c new ih =>
    rw [insertAll, List.foldlM_cons] at h
    obtain ⟨mid, h₁, h₂⟩ := h.of_bind
    obtain ⟨⟨e, he, hp⟩, hbefore⟩ := insert_prevails h₁
    obtain ⟨hnew, hmid⟩ := ih h₂
    have hlater : ∀ x, (∃ e ∈ mid, schema.Prevails e x) → ∃ e ∈ after, schema.Prevails e x := by
      rintro x ⟨e, he, hp⟩
      obtain ⟨e', he', hp'⟩ := hmid e he
      exact ⟨e', he', hp'.trans hp⟩
    exact ⟨List.forall_mem_cons.2 ⟨hlater c ⟨e, he, hp⟩, hnew⟩, fun x hx => hlater x (hbefore x hx)⟩

/-- Inserting conditions that others prevail over changes nothing. -/
theorem insertAll_eq_of_prevails {new : List Name}
    (h : Gives (insertAll before new : LookupM schema LookupError _) after)
    (hp : ∀ x ∈ new, ∃ e ∈ before, schema.Prevails e x) : after = before := by
  induction new with
  | nil => exact h.of_pure
  | cons c new ih =>
    rw [insertAll, List.foldlM_cons] at h
    obtain ⟨mid, h₁, h₂⟩ := h.of_bind
    obtain ⟨e, he, hpe⟩ := hp c (.head _)
    rw [insert_eq_of_prevails h₁ he hpe] at h₂
    exact ih h₂ fun x hx => hp x (List.mem_cons_of_mem _ hx)

end Conditions

/-! ## Entities -/

section
variable (schema : Schema)

/-- Merging the field into the entity adds nothing: a field of the same key leads to the same place,
and a condition of it prevails over each one of the field. -/
def Entity.Absorbs (e : Entity) (f : EntityField) : Prop :=
  ∃ x, e.fields.find? f.fieldKey = some x ∧ (x.child <|> f.child) = x.child ∧
    ∀ c ∈ f.conditions, ∃ c' ∈ x.conditions, schema.Prevails c' c

/-- The entity `e'` is the entity `e` at `l` after the fields of `A` were merged. -/
structure Entity.Receives (l : Location) (A : Set EntityField) (e e' : Entity) : Prop where
  location : e'.location = e.location
  rootType : e'.rootType = e.rootType
  /-- New fields come last. -/
  order : e.fields.keys <+: e'.fields.keys
  keys : ∀ key, key ∈ e'.fields.keys ↔ key ∈ e.fields.keys ∨ ∃ f ∈ A, f.fieldKey = key
  cover : ∀ key o, Cover schema (e'.conditionsAt key) o ↔
    Cover schema (e.conditionsAt key) o ∨ ∃ f ∈ A, f.fieldKey = key ∧ Cover schema f.conditions o
  /-- A present field keeps its name and its link. -/
  present : ∀ key x, e.fields.find? key = some x → ∃ x', e'.fields.find? key = some x' ∧
    x'.fieldKey = x.fieldKey ∧ x'.name = x.name ∧
    (x'.child = x.child ∨ x'.child = (x.child <|> schema.handle? l key)) ∧
    ∀ c ∈ x.conditions, ∃ c' ∈ x'.conditions, schema.Prevails c' c
  /-- A new field is one of those that were merged. -/
  added : ∀ key x', e.fields.find? key = none → e'.fields.find? key = some x' →
    ∃ f ∈ A, f.fieldKey = key ∧ x'.fieldKey = key ∧ x'.name = f.name ∧
      x'.child = schema.handle? l key
  absorbs : ∀ f ∈ A, e'.Absorbs schema f

end

namespace Entity

variable {schema : Schema} {l : Location} {A B : Set EntityField} {e e₁ e₂ e₃ e' : Entity}
  {f : EntityField}

/-- A field that is absorbed stays so. -/
theorem Receives.absorbs_of_absorbs (h : Receives schema l A e e') (ha : e.Absorbs schema f)
    (hf : f.child = schema.handle? l f.fieldKey) : e'.Absorbs schema f := by
  obtain ⟨x, hx, hchild, hp⟩ := ha
  obtain ⟨x', hx', -, -, hchild', hp'⟩ := h.present _ x hx
  refine ⟨x', hx', ?_, fun c hc => ?_⟩
  · rw [hf] at hchild ⊢
    rcases hchild' with heq | heq
    · rw [heq, hchild]
    · rw [heq, hchild, hchild]
  · obtain ⟨c₁, hc₁, hp₁⟩ := hp c hc
    obtain ⟨c₂, hc₂, hp₂⟩ := hp' c₁ hc₁
    exact ⟨c₂, hc₂, hp₂.trans hp₁⟩

/-- Nothing is merged. -/
theorem Receives.refl (e : Entity) : Receives schema l ∅ e e where
  location := rfl
  rootType := rfl
  order := List.prefix_refl _
  keys := by simp
  cover := by simp
  present _ x hx := ⟨x, hx, rfl, rfl, .inl rfl, fun c hc => ⟨c, hc, .refl c⟩⟩
  added _ _ h h' := by rw [h] at h'; cases h'
  absorbs _ h := h.elim

/-- Merged fields are followed by others. -/
theorem Receives.trans (h₁ : Receives schema l A e₁ e₂) (h₂ : Receives schema l B e₂ e₃)
    (hA : ∀ f ∈ A, f.child = schema.handle? l f.fieldKey) : Receives schema l (A ∪ B) e₁ e₃ where
  location := h₂.location.trans h₁.location
  rootType := h₂.rootType.trans h₁.rootType
  order := h₁.order.trans h₂.order
  keys key := by
    rw [h₂.keys, h₁.keys]
    simp only [Set.mem_union, or_and_right, exists_or, or_assoc]
  cover key o := by
    rw [h₂.cover, h₁.cover]
    simp only [Set.mem_union, or_and_right, exists_or, or_assoc]
  present key x hx := by
    obtain ⟨x₂, hx₂, hkey₂, hname₂, hchild₂, hp₂⟩ := h₁.present key x hx
    obtain ⟨x₃, hx₃, hkey₃, hname₃, hchild₃, hp₃⟩ := h₂.present key x₂ hx₂
    refine ⟨x₃, hx₃, hkey₃.trans hkey₂, hname₃.trans hname₂, ?_, fun c hc => ?_⟩
    · -- a link is filled in at most once
      rcases hchild₂ with heq₂ | heq₂ <;> rcases hchild₃ with heq₃ | heq₃ <;> rw [heq₃, heq₂]
      · exact .inl rfl
      · exact .inr rfl
      · exact .inr rfl
      · refine .inr ?_
        cases x.child <;> cases schema.handle? l key <;> rfl
    · obtain ⟨c₂, hc₂, hpc₂⟩ := hp₂ c hc
      obtain ⟨c₃, hc₃, hpc₃⟩ := hp₃ c₂ hc₂
      exact ⟨c₃, hc₃, hpc₃.trans hpc₂⟩
  added key x₃ hnone hx₃ := by
    cases hfind : e₂.fields.find? key with
    | none =>
      obtain ⟨f, hf, hrest⟩ := h₂.added key x₃ hfind hx₃
      exact ⟨f, .inr hf, hrest⟩
    | some x₂ =>
      obtain ⟨f, hf, hfkey, hkey, hname, hchild⟩ := h₁.added key x₂ hnone hfind
      obtain ⟨x, hx, hkey₃, hname₃, hchild₃, -⟩ := h₂.present key x₂ hfind
      cases hx₃.symm.trans hx
      refine ⟨f, .inl hf, hfkey, hkey₃.trans hkey, hname₃.trans hname, ?_⟩
      rw [hchild] at hchild₃
      rcases hchild₃ with heq | heq
      · exact heq
      · rw [heq]
        cases schema.handle? l key <;> rfl
  absorbs f hf := by
    rcases hf with hf | hf
    · exact h₂.absorbs_of_absorbs (h₁.absorbs f hf) (hA f hf)
    · exact h₂.absorbs f hf

/-- What is taken over from a present field. -/
theorem Merge.of_some {m x : EntityField} (h : Merge schema e f m)
    (hx : e.fields.find? f.fieldKey = some x) :
    m.fieldKey = x.fieldKey ∧ m.name = x.name ∧ m.child = (x.child <|> f.child) := by
  have hrest := h.rest
  rw [hx] at hrest
  rw [hrest]
  exact ⟨rfl, rfl, rfl⟩

/-- What is taken over from the field that is merged. -/
theorem Merge.of_none {m : EntityField} (h : Merge schema e f m)
    (hx : e.fields.find? f.fieldKey = none) :
    m.fieldKey = f.fieldKey ∧ m.name = f.name ∧ m.child = f.child := by
  have hrest := h.rest
  rw [hx] at hrest
  rw [hrest]
  exact ⟨rfl, rfl, rfl⟩

/-- A field that is merged is received. -/
theorem Receives.merge (h : Gives (e.mergeField f : LookupM schema BuildError Entity) e')
    (hf : f.child = schema.handle? l f.fieldKey) : Receives schema l {f} e e' := by
  obtain ⟨m, hm, rfl, hinsert⟩ := mergeField_inserts h
  obtain ⟨hnew, hold⟩ := Conditions.insertAll_prevails hinsert
  have hat : conditionsAt { e with fields := e.fields.insert f.fieldKey m } f.fieldKey =
      m.conditions := by
    simp [conditionsAt]
  refine ⟨rfl, rfl, Dict.keys_prefix_insert .., fun key => ?_, fun key o => ?_,
    fun key x hx => ?_, fun key x' hnone hx' => ?_, fun g hg => ?_⟩
  · simp [Dict.mem_keys_insert, eq_comm]
  · by_cases hk : key = f.fieldKey
    · subst hk
      rw [hat, hm.joins.cover]
      simp [Cover]
    · simp [conditionsAt, Dict.find?_insert, hk, Ne.symm hk]
  · by_cases hk : key = f.fieldKey
    · subst hk
      simp only [conditionsAt, hx] at hold
      obtain ⟨hkey, hname, hchild⟩ := hm.of_some hx
      exact ⟨m, Dict.find?_insert_self .., hkey, hname, .inr (hf ▸ hchild), hold⟩
    · exact ⟨x, by rw [Dict.find?_insert, if_neg hk, hx], rfl, rfl, .inl rfl,
        fun c hc => ⟨c, hc, .refl c⟩⟩
  · by_cases hk : key = f.fieldKey
    · subst hk
      rw [Dict.find?_insert_self] at hx'
      cases hx'
      obtain ⟨hkey, hname, hchild⟩ := hm.of_none hnone
      exact ⟨f, rfl, rfl, hkey, hname, hchild.trans hf⟩
    · rw [Dict.find?_insert, if_neg hk, hnone] at hx'
      cases hx'
  · rw [Set.mem_singleton_iff.1 hg]
    refine ⟨m, Dict.find?_insert_self .., ?_, hnew⟩
    cases hx : e.fields.find? f.fieldKey with
    | none => rw [(hm.of_none hx).2.2]; cases f.child <;> rfl
    | some x => rw [(hm.of_some hx).2.2]; cases x.child <;> cases f.child <;> rfl

/-- A field that is absorbed changes nothing when it is merged. -/
theorem Absorbs.mergeField_eq (ha : e.Absorbs schema f)
    (h : Gives (e.mergeField f : LookupM schema BuildError Entity) e') : e' = e := by
  obtain ⟨x, hx, hchild, hp⟩ := ha
  obtain ⟨m, hm, rfl, hinsert⟩ := mergeField_inserts h
  have hconditions : m.conditions = x.conditions := by
    simp only [conditionsAt, hx] at hinsert
    exact Conditions.insertAll_eq_of_prevails hinsert hp
  have heq : m = x := by
    have hrest := hm.rest
    rw [hx, hconditions] at hrest
    dsimp only at hrest
    rwa [hchild] at hrest
  rw [heq, Dict.insert_of_find? hx]

end Entity

/-! ## Units -/

/-- Paths from one location lead to different locations. -/
@[simp] theorem Location.extend_inj {l : Location} {p q : List LocationStep} :
    l.extend p = l.extend q ↔ p = q := by
  simp [Location.extend]

/-- Members that are there already change nothing. -/
theorem OrderedSet.insertAll_of_subset {α : Type} [DecidableEq α] {s : OrderedSet α} {l : List α}
    (h : ∀ a ∈ l, a ∈ s) : s.insertAll l = s := by
  induction l with
  | nil => rfl
  | cons a l ih =>
    have ha : s.insert a = s := by rw [OrderedSet.insert, dif_pos (h a (.head _))]
    rw [OrderedSet.insertAll, List.foldl_cons, ha]
    exact ih fun b hb => h b (List.mem_cons_of_mem _ hb)

/-- Adding the same members again changes nothing. -/
theorem OrderedSet.insertAll_insertAll {α : Type} [DecidableEq α] {s : OrderedSet α}
    {l : List α} : (s.insertAll l).insertAll l = s.insertAll l :=
  insertAll_of_subset fun _ ha => OrderedSet.mem_insertAll.2 (.inr ha)

/-- The unit `w'` is `w` after, below the location `L`, the entities at the paths in `N` were
entered and `notes` of fragments were made there, and the fields in `A` were merged at each path. -/
structure Workpiece.Overlaid (schema : Schema) (L : Location)
    (notes : List LocationStep → List Name) (N : Set (List LocationStep))
    (A : List LocationStep → Set EntityField) (w w' : Workpiece) : Prop where
  referenced : w'.referenced = w.referenced
  /-- New entities come last. -/
  order : w.entities.keys <+: w'.entities.keys
  keys : ∀ l, l ∈ w'.entities.keys ↔ l ∈ w.entities.keys ∨ ∃ p ∈ N, l = L.extend p
  noted : ∀ p ∈ N, (w'.entity (L.extend p)).mergedFragments =
    (w.entity (L.extend p)).mergedFragments.insertAll (notes p)
  unnoted : ∀ p ∉ N, (w'.entity (L.extend p)).mergedFragments =
    (w.entity (L.extend p)).mergedFragments
  links : ∀ p, ∀ f ∈ A p, f.child = schema.handle? (L.extend p) f.fieldKey
  receives : ∀ p, Entity.Receives schema (L.extend p) (A p) (w.entity (L.extend p))
    (w'.entity (L.extend p))
  elsewhere : ∀ l, (∀ p, l = L.extend p → p ∉ N ∧ A p = ∅) →
    w'.entities.find? l = w.entities.find? l

/-- The unit `w` has already what `Overlaid` says of a unit. -/
structure Workpiece.Absorbs (schema : Schema) (L : Location)
    (notes : List LocationStep → List Name) (N : Set (List LocationStep))
    (A : List LocationStep → Set EntityField) (w : Workpiece) : Prop where
  keys : ∀ p ∈ N, L.extend p ∈ w.entities.keys
  noted : ∀ p ∈ N, ∀ name ∈ notes p, name ∈ (w.entity (L.extend p)).mergedFragments
  fields : ∀ p, ∀ f ∈ A p, (w.entity (L.extend p)).Absorbs schema f

namespace Workpiece.Overlaid

variable {schema : Schema} {L : Location} {notes : List LocationStep → List Name}
  {N N' : Set (List LocationStep)} {A A' : List LocationStep → Set EntityField}
  {w w₁ w₂ w₃ w' : Workpiece} {p : List LocationStep}

/-- The same steps, said in another way. -/
theorem congr (h : Overlaid schema L notes N A w w') (hN : ∀ q, q ∈ N ↔ q ∈ N')
    (hA : ∀ q f, f ∈ A q ↔ f ∈ A' q) : Overlaid schema L notes N' A' w w' := by
  have hNN : N = N' := Set.ext hN
  have hAA : A = A' := funext fun q => Set.ext (hA q)
  rwa [← hNN, ← hAA]

/-- Nothing changes. -/
theorem refl (w : Workpiece) : Overlaid schema L notes ∅ (fun _ => ∅) w w where
  referenced := rfl
  order := List.prefix_refl _
  keys := by simp
  noted _ h := h.elim
  unnoted _ _ := rfl
  links _ _ h := h.elim
  receives _ := .refl _
  elsewhere _ _ := rfl

/-- Steps follow one another. -/
theorem trans (h₁ : Overlaid schema L notes N A w₁ w₂) (h₂ : Overlaid schema L notes N' A' w₂ w₃) :
    Overlaid schema L notes (N ∪ N') (fun q => A q ∪ A' q) w₁ w₃ where
  referenced := h₂.referenced.trans h₁.referenced
  order := h₁.order.trans h₂.order
  keys l := by
    rw [h₂.keys, h₁.keys]
    simp only [Set.mem_union, or_and_right, exists_or, or_assoc]
  -- an entity may be entered twice, but the second time its notes are there
  noted q hq := by
    by_cases hq₁ : q ∈ N <;> by_cases hq₂ : q ∈ N'
    · rw [h₂.noted q hq₂, h₁.noted q hq₁, OrderedSet.insertAll_insertAll]
    · rw [h₂.unnoted q hq₂, h₁.noted q hq₁]
    · rw [h₂.noted q hq₂, h₁.unnoted q hq₁]
    · exact absurd hq (by simp [hq₁, hq₂])
  unnoted q hq := by
    rw [h₂.unnoted q fun h => hq (.inr h), h₁.unnoted q fun h => hq (.inl h)]
  links q f hf := hf.elim (h₁.links q f) (h₂.links q f)
  receives q := (h₁.receives q).trans (h₂.receives q) (h₁.links q)
  elsewhere l hl := by
    rw [h₂.elsewhere l, h₁.elsewhere l]
    · exact fun q hq => ⟨fun h => (hl q hq).1 (.inl h), (Set.union_empty_iff.1 (hl q hq).2).1⟩
    · exact fun q hq => ⟨fun h => (hl q hq).1 (.inr h), (Set.union_empty_iff.1 (hl q hq).2).2⟩

/-- What was entered, noted and merged is there. -/
theorem absorbs (h : Overlaid schema L notes N A w w') :
    Workpiece.Absorbs schema L notes N A w' where
  keys q hq := (h.keys _).2 (.inr ⟨q, hq, rfl⟩)
  noted q hq name hname := by
    rw [h.noted q hq]
    exact OrderedSet.mem_insertAll.2 (.inr hname)
  fields q := (h.receives q).absorbs

/-- An entity is entered, and fragments are noted there. -/
theorem note (w : Workpiece) (p : List LocationStep) :
    Overlaid schema L notes {p} (fun _ => ∅) w (w.put (L.extend p) { w.entity (L.extend p) with
      mergedFragments := (w.entity (L.extend p)).mergedFragments.insertAll (notes p) }) where
  referenced := rfl
  order := Dict.keys_prefix_insert ..
  keys l := by simp [Workpiece.put, Dict.mem_keys_insert]
  noted q hq := by
    rw [Set.mem_singleton_iff.1 hq, entity_put, if_pos rfl]
  unnoted q hq := by
    rw [entity_put, if_neg fun heq => hq (Location.extend_inj.1 heq)]
  links _ _ h := h.elim
  receives q := by
    rw [entity_put]
    split
    · next heq =>
      rw [heq]
      have hrefl : Entity.Receives schema (L.extend p) ∅ (w.entity (L.extend p))
          (w.entity (L.extend p)) := .refl _
      exact ⟨rfl, rfl, hrefl.order, hrefl.keys, hrefl.cover, hrefl.present, hrefl.added,
        fun _ h => h.elim⟩
    · exact .refl _
  elsewhere l hl := by
    rw [find?_put, if_neg]
    rintro rfl
    exact (hl p rfl).1 rfl

/-- A field is merged into an entity that is there. -/
theorem merge {f : EntityField} {e : Entity} (hp : L.extend p ∈ w.entities.keys)
    (h : Gives ((w.entity (L.extend p)).mergeField f : LookupM schema BuildError Entity) e)
    (hf : f.child = schema.handle? (L.extend p) f.fieldKey) :
    Overlaid schema L notes ∅ (fun q => {g | q = p ∧ g = f}) w (w.put (L.extend p) e) where
  referenced := rfl
  order := Dict.keys_prefix_insert ..
  keys l := by simpa [Workpiece.put, Dict.mem_keys_insert] using fun heq => heq ▸ hp
  noted _ h := h.elim
  unnoted q _ := by
    rw [entity_put]
    split
    · next heq =>
      obtain ⟨m, -, rfl⟩ := Entity.mergeField_gives h
      rw [heq]
    · rfl
  links q g hg := by
    obtain ⟨rfl, rfl⟩ := hg
    exact hf
  receives q := by
    rw [entity_put]
    by_cases hq : q = p
    · subst hq
      have hset : {g | q = q ∧ g = f} = {f} := by ext g; simp
      rw [if_pos rfl, hset]
      exact .merge h hf
    · have hset : {g | q = p ∧ g = f} = ∅ := by ext g; simp [hq]
      rw [if_neg fun heq => hq (Location.extend_inj.1 heq), hset]
      exact .refl _
  elsewhere l hl := by
    rw [find?_put, if_neg]
    rintro rfl
    have hmem : f ∈ {g | p = p ∧ g = f} := ⟨rfl, rfl⟩
    rw [(hl p rfl).2] at hmem
    exact hmem

/-- A loop takes its steps one after the other, at an entity that is there. -/
theorem chain {α : Type} {R : α → Workpiece → Workpiece → Prop} {N : α → Set (List LocationStep)}
    {A : α → List LocationStep → Set EntityField} {steps : List α}
    (step : ∀ a ∈ steps, ∀ v v', R a v v' → L.extend p ∈ v.entities.keys →
      Overlaid schema L notes (N a) (A a) v v')
    (h : Chain R steps w w') (hp : L.extend p ∈ w.entities.keys) :
    Overlaid schema L notes {q | ∃ a ∈ steps, q ∈ N a} (fun q => {f | ∃ a ∈ steps, f ∈ A a q})
      w w' := by
  induction steps generalizing w with
  | nil =>
    cases h
    exact (refl _).congr (by simp) (by simp)
  | cons a steps ih =>
    obtain ⟨v, ha, hrest⟩ := h
    have hfirst := step a (.head _) w v ha hp
    -- the entity stays there, so the rest of the loop starts at it as well
    have hlater := ih (fun b hb => step b (List.mem_cons_of_mem _ hb)) hrest
      ((hfirst.keys _).2 (.inl hp))
    exact (hfirst.trans hlater).congr (by simp) (by simp)

end Workpiece.Overlaid

end EntityGraph
