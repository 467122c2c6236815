import EntityGraph.Proofs.Walk.Walks

/-!
# Units only grow

Whatever a walk does to a unit, it takes nothing back: entities and fields stay, a field keeps its
key and covers at least the object types that it covered before, and the fragments that are
referenced stay so. A walk that starts at a location does not touch what does not lie below it. Both
are one relation, `Grows`, which can be followed along any sequence of steps. Main statements:
`Copies.grows` and `Visits.grows`.
-/

namespace EntityGraph

open Conditions (Cover)

/-! ## Locations -/

namespace Location

/-- The location `l` is `base`, or lies somewhere below it. -/
def Below (base l : Location) : Prop := ∃ steps, l = { base with path := base.path ++ steps }

/-- A location lies below itself. -/
theorem Below.refl (l : Location) : Below l l := ⟨[], by simp⟩

/-- What lies below a field of a location lies below the location. -/
theorem Below.of_append {base l : Location} {key type : Name} (h : Below (base.append key type) l) :
    Below base l := by
  obtain ⟨steps, rfl⟩ := h
  exact ⟨⟨key, type⟩ :: steps, by simp [append]⟩

/-- The fields of what lies below a location lie below it as well. -/
theorem Below.append {base l : Location} (h : Below base l) (key type : Name) :
    Below base (l.append key type) := by
  obtain ⟨steps, rfl⟩ := h
  exact ⟨steps ++ [⟨key, type⟩], by simp [Location.append]⟩

/-- A location does not lie below one of its fields. -/
theorem not_below_append (l : Location) (key type : Name) : ¬ Below (l.append key type) l := by
  rintro ⟨steps, h⟩
  have hlength := congrArg (fun l => l.path.length) h
  simp [append] at hlength

/-- The type at the location one field further. -/
@[simp] theorem typeName_append (l : Location) (key type : Name) :
    (l.append key type).typeName = type := by
  simp [append, typeName]

@[simp] theorem length_path_append (l : Location) (key type : Name) :
    (l.append key type).path.length = l.path.length + 1 := by
  simp [append]

end Location

/-- The field that the entity at a location has under a key. -/
def Storage.field? (entities : Storage) (l : Location) (key : FieldKey) : Option EntityField :=
  (entities.find? l).bind (·.fields.find? key)

/-- Only an entity has fields. -/
theorem Storage.field?_eq_some_iff {entities : Storage} {l : Location} {key : FieldKey}
    {f : EntityField} :
    entities.field? l key = some f ↔
      ∃ e, entities.find? l = some e ∧ e.fields.find? key = some f :=
  Option.bind_eq_some_iff

/-- The fields of a location that is put there are those of the entity that is put. -/
theorem Workpiece.field?_put (w : Workpiece) (l l' : Location) (e : Entity) (key : FieldKey) :
    (w.put l e).entities.field? l' key =
      if l' = l then e.fields.find? key else w.entities.field? l' key := by
  unfold Storage.field?
  rw [find?_put]
  split <;> rfl

/-- A location without an entity has no fields either way. -/
theorem Workpiece.field?_entity (w : Workpiece) (l : Location) (key : FieldKey) :
    w.entities.field? l key = (w.entity l).fields.find? key := by
  unfold Storage.field? Workpiece.entity
  cases w.entities.find? l with
  | none => rfl
  | some e => rfl

/-! ## Growth -/

section
variable (schema : Schema)

/-- The unit `w'` has all that `w` has, and differs from it below `base` only. -/
structure Grows (base : Location) (w w' : Workpiece) : Prop where
  keys : ∀ l ∈ w.entities.keys, l ∈ w'.entities.keys
  /-- A field stays, and covers as much as before. -/
  fields : ∀ l key f, w.entities.field? l key = some f →
    ∃ f', w'.entities.field? l key = some f' ∧
      ∀ o, Cover schema f.conditions o → Cover schema f'.conditions o
  referenced : ∀ name ∈ w.referenced.keys, name ∈ w'.referenced.keys
  elsewhere : ∀ l, ¬ base.Below l → w'.entities.find? l = w.entities.find? l

end

variable {schema : Schema} {base target location : Location} {w w₁ w₂ w₃ w' : Workpiece}

/-- Nothing changes. -/
theorem Grows.refl (w : Workpiece) : Grows schema base w w :=
  ⟨fun _ h => h, fun _ _ f h => ⟨f, h, fun _ h => h⟩, fun _ h => h, fun _ _ => rfl⟩

/-- Growth can be followed along. -/
theorem Grows.trans (h₁ : Grows schema base w₁ w₂) (h₂ : Grows schema base w₂ w₃) :
    Grows schema base w₁ w₃ := by
  refine ⟨fun l h => h₂.keys l (h₁.keys l h), fun l key f hf => ?_,
    fun n h => h₂.referenced n (h₁.referenced n h),
    fun l hl => (h₂.elsewhere l hl).trans (h₁.elsewhere l hl)⟩
  obtain ⟨f₁, hf₁, hc₁⟩ := h₁.fields l key f hf
  obtain ⟨f₂, hf₂, hc₂⟩ := h₂.fields l key f₁ hf₁
  exact ⟨f₂, hf₂, fun o ho => hc₂ o (hc₁ o ho)⟩

/-- What grows below a field of a location grows below the location. -/
theorem Grows.of_append {key type : Name} (h : Grows schema (base.append key type) w w') :
    Grows schema base w w' :=
  ⟨h.keys, h.fields, h.referenced, fun l hl => h.elsewhere l fun hb => hl hb.of_append⟩

/-- A walk below a field leaves the entity that has the field as it is. -/
theorem Grows.entity_eq {key type : Name} (h : Grows schema (base.append key type) w w') :
    w'.entity base = w.entity base := by
  unfold Workpiece.entity
  rw [h.elsewhere base (base.not_below_append key type)]

/-- An entity is replaced by one that has at least its fields. -/
theorem Grows.put {l : Location} {e : Entity}
    (h : ∀ key f, (w.entity l).fields.find? key = some f →
      ∃ f', e.fields.find? key = some f' ∧
        ∀ o, Cover schema f.conditions o → Cover schema f'.conditions o) :
    Grows schema l w (w.put l e) := by
  refine ⟨fun l' hl' => ?_, fun l' key f hf => ?_, fun _ h => h, fun l' hl' => ?_⟩
  · rw [Workpiece.put, Dict.keys_insert]
    split
    · exact hl'
    · exact List.mem_append_left _ hl'
  · rw [Workpiece.field?_put]
    split
    · next heq =>
      rw [heq, Workpiece.field?_entity] at hf
      exact h key f hf
    · exact ⟨f, hf, fun _ h => h⟩
  · have hne : l' ≠ l := fun heq => hl' (heq ▸ .refl _)
    rw [Workpiece.find?_put, if_neg hne]

/-- An entity is replaced by one with the same fields. -/
theorem Grows.put_of_fields {l : Location} {e : Entity} (h : e.fields = (w.entity l).fields) :
    Grows schema l w (w.put l e) :=
  .put fun _ f hf => ⟨f, h ▸ hf, fun _ h => h⟩

/-- A loop whose steps let a location grow lets it grow. -/
theorem Chain.grows {α : Type} {R : α → Workpiece → Workpiece → Prop} {l : List α}
    (step : ∀ a ∈ l, ∀ w w', R a w w' → Grows schema base w w') (h : Chain R l w w') :
    Grows schema base w w' :=
  Chain.lift Grows.refl Grows.trans step h

/-- Noting a fragment takes no note back. -/
theorem Grows.refer (fragment : Fragment) : Grows schema base w (w.refer fragment) := by
  refine ⟨fun _ h => h, fun _ _ f h => ⟨f, h, fun _ h => h⟩, fun name hn => ?_, fun _ _ => rfl⟩
  exact (Workpiece.mem_keys_refer ..).2 (.inl hn)

/-- A field that is merged is there, and covers what it covered. -/
theorem Merges.field {f : EntityField} (h : Merges schema location f w w') :
    ∃ m, w'.entities.field? location f.fieldKey = some m ∧
      ∀ o, Cover schema f.conditions o → Cover schema m.conditions o := by
  obtain ⟨m, hm, rfl⟩ := h
  refine ⟨m, by simp [Workpiece.field?_put], fun o ho => ?_⟩
  exact (hm.joins.cover o).2 (.inr ho)

/-- Merging a field lets its entity grow. -/
theorem Merges.grows {f : EntityField} (h : Merges schema location f w w') :
    Grows schema location w w' := by
  obtain ⟨m, hm, rfl⟩ := h
  refine .put fun key x hx => ?_
  rw [Dict.find?_insert]
  split
  · next hk =>
    refine ⟨m, rfl, fun o ho => (hm.joins.cover o).2 (.inl ?_)⟩
    rw [hk] at hx
    simpa [Entity.conditionsAt, hx] using ho
  · exact ⟨x, hx, fun _ h => h⟩

/-! ## Walks -/

/-- Copying a field lets the target grow. -/
theorem CopiesField.grows
    {nested : (target source : Location) → Name → Workpiece → Workpiece → Prop} {condition : Name}
    {f : EntityField}
    (hn : ∀ target source condition w w', nested target source condition w w' →
      Grows schema target w w')
    (h : CopiesField schema nested target condition f w w') : Grows schema target w w' := by
  cases h with
  | skip => exact .refl _
  | leaf _ _ _ hm => exact hm.grows
  | node _ _ _ hc hm => exact (hn _ _ _ _ _ hc).of_append.trans hm.grows

/-- Copying a fragment lets the target grow. -/
theorem Copies.grows {fragment : Fragment} {depth : Nat} {source : Location} {condition : Name}
    (h : Copies schema fragment depth target source condition w w') :
    Grows schema target w w' := by
  induction depth generalizing target source condition w w' with
  | zero => exact h ▸ .refl _
  | succ depth ih =>
    unfold Copies at h
    split at h
    · exact h ▸ .refl _
    · refine Grows.trans (Grows.put_of_fields ?_) (h.grows fun f _ w w' hf => ?_)
      · rfl
      · exact hf.grows fun _ _ _ _ _ => ih

variable {G : Name → Fragment → Prop}

/-- Entering a normal selection lets its location grow. -/
theorem VisitsSelection.grows
    {nested : Location → Name → List Selection → Workpiece → Workpiece → Prop}
    {s : NormalSelection}
    (hn : ∀ location condition selections w w', nested location condition selections w w' →
      Grows schema location w w')
    (h : VisitsSelection schema G nested location s w w') : Grows schema location w w' := by
  cases h with
  | leaf _ _ _ hm => exact hm.grows
  | node _ _ _ hv hm => exact (hn _ _ _ _ _ hv).of_append.trans hm.grows
  | spread _ _ hc =>
    exact (Grows.refer _).trans (hc.grows fun _ _ _ _ hc => hc.grows)
  | unreachable => exact .refl _

/-- Entering selections lets their location grow. -/
theorem Visits.grows {height : Nat} {condition : Name} {selections : List Selection}
    (h : Visits schema G height location condition selections w w') :
    Grows schema location w w' := by
  induction height generalizing location condition selections w w' with
  | zero => exact h ▸ .put_of_fields rfl
  | succ height ih =>
    obtain ⟨normal, -, hc⟩ := h
    refine Grows.trans (.put_of_fields rfl) (hc.grows fun s _ w w' hs => ?_)
    exact hs.grows fun _ _ _ _ _ => ih

end EntityGraph
