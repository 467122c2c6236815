import EntityGraph.Proofs.Entity.Conflicts

/-!
# The names of merged fields

The fields of an entity are told apart by response key and type, and not by the names that the
schema has for them. A field keeps the name with which it was selected first, so a later selection
of another field under the same response key, of the same type, loses its name
(`Entity.MadeOf.name_held`). The entities of a unit are made of fields that the document selects
(`Yields.made`), so that no name is lost in a document that uses each response key for one field
only (`Yields.name_eq`).
-/

namespace EntityGraph

open LookupM (Gives)

/-! ## First names -/

namespace Entity.MadeOf

variable {schema : Schema} {e e' : Entity} {f : EntityField} {merged : List EntityField}

/-- A field has the key and the name of the first one that was merged under its key. -/
theorem rel_find? (h : e.MadeOf schema merged) (key : FieldKey) :
    Option.Rel (fun x g => x.fieldKey = key ∧ x.name = g.name) (e.fields.find? key)
      (merged.find? (·.fieldKey = key)) := by
  induction h with
  | new l => exact .none
  | noted names _ ih => exact ih
  | @merge e merged f m _ hm ih =>
    rw [List.find?_append]
    by_cases hk : f.fieldKey = key
    · have hrest := hm.rest
      rw [hk] at hrest
      rw [hk, Dict.find?_insert_self, hrest, List.find?_cons_of_pos (by simpa using hk)]
      generalize e.fields.find? key = old, merged.find? (·.fieldKey = key) = first at ih
      cases ih with
      | none => exact .some ⟨hk, rfl⟩
      | some hold => exact .some hold
    · rw [Dict.find?_insert, if_neg (Ne.symm hk)]
      simpa [hk] using ih

/-- A field of the entity comes from a first one that was merged. -/
theorem exists_first (h : e.MadeOf schema merged) {key : FieldKey} {x : EntityField}
    (hx : e.fields.find? key = some x) :
    x.fieldKey = key ∧ ∃ g, merged.find? (·.fieldKey = key) = some g ∧ x.name = g.name := by
  have hrel := h.rel_find? key
  rw [hx] at hrel
  cases hg : merged.find? (·.fieldKey = key) with
  | none => rw [hg] at hrel; cases hrel
  | some g =>
    rw [hg] at hrel
    obtain ⟨hkey, hname⟩ := Option.rel_some_some.1 hrel
    exact ⟨hkey, g, rfl, hname⟩

/-- After a merge the entity has a field under the key of the one that was merged. It has the name
of the first one that was merged under the key, which need not be that of the one that was merged
now. The name is right for all of them exactly if they agree on it. -/
theorem name_held (he : e.MadeOf schema merged)
    (hg : Gives (e.mergeField f : LookupM schema BuildError Entity) e') :
    ∃ m first, e'.fields.find? f.fieldKey = some m ∧
      (merged ++ [f]).find? (·.fieldKey = f.fieldKey) = some first ∧ m.name = first.name ∧
      (m.name = f.name ↔ ∀ g, merged.find? (·.fieldKey = f.fieldKey) = some g → g.name = f.name) ∧
      ((∀ g ∈ merged ++ [f], g.fieldKey = f.fieldKey → m.name = g.name) ↔
        ∀ g ∈ merged, g.fieldKey = f.fieldKey → g.name = f.name) := by
  obtain ⟨m, -, rfl⟩ := Entity.mergeField_gives hg
  obtain ⟨-, first, hfirst, hname⟩ := (he.mergeField hg).exists_first (Dict.find?_insert_self ..)
  refine ⟨m, first, Dict.find?_insert_self .., hfirst, hname, ?_, fun h g hm hk => ?_,
    fun h g hm hk => ?_⟩
  · rw [hname]
    rw [List.find?_append] at hfirst
    cases hold : merged.find? (·.fieldKey = f.fieldKey) with
    | some g =>
      rw [hold] at hfirst
      cases hfirst
      simp
    | none =>
      rw [hold] at hfirst
      have heq : f = first := by simpa using hfirst
      simp [heq]
  · exact (h g (List.mem_append_left _ hm) hk).symm.trans (h f (by simp) rfl)
  · -- whichever came first, it has the name of the last one
    have hlast : ∀ g ∈ merged ++ [f], g.fieldKey = f.fieldKey → g.name = f.name := by
      intro g hm hk
      rcases List.mem_append.1 hm with hm | hm
      · exact h g hm hk
      · rw [List.mem_singleton.1 hm]
    have hkey : first.fieldKey = f.fieldKey := by simpa using List.find?_some hfirst
    rw [hname, hlast first (List.mem_of_find?_eq_some hfirst) hkey, hlast g hm hk]

end Entity.MadeOf

/-! ## Selected names -/

/-- The field `name` is selected under the response key `key` in the selections, at any depth. -/
inductive Selects : (selections : List Selection) → (key name : Name) → Prop
  | field {selections inner : List Selection} {aliasName : Option Name} {name : Name}
      {place : SourceLocation} :
      .field aliasName name place inner ∈ selections →
      Selects selections (responseKey aliasName name) name
  | nested {selections inner : List Selection} {aliasName : Option Name} {other key name : Name}
      {place : SourceLocation} :
      .field aliasName other place inner ∈ selections → Selects inner key name →
      Selects selections key name
  | inline {selections inner : List Selection} {condition : Option Name} {key name : Name}
      {place : SourceLocation} :
      .inline condition place inner ∈ selections → Selects inner key name →
      Selects selections key name

/-- The field is selected by the unit itself or by a fragment of the document. -/
def CompiledUnit.Selects (document : Document) (u : CompiledUnit) (key name : Name) : Prop :=
  EntityGraph.Selects u.selections key name ∨
    ∃ other d, document.Defines other d ∧ EntityGraph.Selects d.selections key name

section
variable (schema : Schema)

/-- Every entity is made of fields whose response keys and names satisfy `P`. -/
def Storage.Made (P : (key name : Name) → Prop) (s : Storage) : Prop :=
  ∀ l e, s.find? l = some e → ∃ merged, e.MadeOf schema merged ∧ ∀ g ∈ merged, P g.key g.name

end

section
variable {schema : Schema} {P : (key name : Name) → Prop} {l : Location} {w w' : Workpiece}
  {e : Entity} {f : EntityField} {s : Storage}

/-- What is selected in a part of the normal form is selected in the whole. -/
theorem Emits.selects {c c' name : Name} {selections inner : List Selection}
    {aliasName : Option Name} {place : SourceLocation}
    (h : Emits schema c selections (.field aliasName name place inner c')) :
    Selects selections (responseKey aliasName name) name ∧
      ∀ k n, Selects inner k n → Selects selections k n := by
  generalize hn : NormalSelection.field aliasName name place inner c' = n at h
  induction h with
  | field hm => cases hn; exact ⟨.field hm, fun k n => .nested hm⟩
  | spread hm | excluded hm => cases hn
  | inline hm _ ih | narrowed hm _ _ _ ih =>
    obtain ⟨hself, hinner⟩ := ih hn
    exact ⟨.inline hm hself, fun k n hk => .inline hm (hinner k n hk)⟩

namespace Storage.Made

/-- A storage without entities. -/
theorem empty : Storage.Made schema P ∅ := fun _ _ h => nomatch h

/-- Each field that an entity has satisfies `P`. -/
theorem field (h : s.Made schema P) (he : s.find? l = some e) {x : EntityField}
    (hx : x ∈ e.fields.values) : P x.key x.name := by
  obtain ⟨merged, hmade, hP⟩ := h l e he
  obtain ⟨key, hx⟩ := Dict.mem_values_iff.1 hx
  obtain ⟨hkey, g, hg, hname⟩ := hmade.exists_first hx
  have hsame : g.fieldKey = x.fieldKey := by
    rw [hkey]
    simpa using List.find?_some hg
  rw [hname, ← show g.key = x.key from congrArg FieldKey.key hsame]
  exact hP g (List.mem_of_find?_eq_some hg)

/-- The entity at a location, as it is or as it would be created. -/
theorem entity (h : w.entities.Made schema P) (l : Location) :
    ∃ merged, (w.entity l).MadeOf schema merged ∧ ∀ g ∈ merged, P g.key g.name := by
  unfold Workpiece.entity
  cases hf : w.entities.find? l with
  | some e => exact h l e hf
  | none => exact ⟨[], .new l, by simp⟩

/-- An entity is put at a location. -/
theorem put (h : w.entities.Made schema P) {merged : List EntityField}
    (he : e.MadeOf schema merged) (hP : ∀ g ∈ merged, P g.key g.name) :
    (w.put l e).entities.Made schema P := by
  intro l' e' hf
  rw [Workpiece.find?_put] at hf
  split at hf
  · cases hf
    exact ⟨merged, he, hP⟩
  · exact h l' e' hf

/-- A field is merged. -/
theorem merge (h : w.entities.Made schema P) (hm : Merges schema l f w w')
    (hf : P f.key f.name) : w'.entities.Made schema P := by
  obtain ⟨m, hm, rfl⟩ := hm
  obtain ⟨merged, hmade, hP⟩ := h.entity l
  refine h.put (hmade.merge hm) fun g hg => ?_
  rcases List.mem_append.1 hg with hg | hg
  · exact hP g hg
  · rw [List.mem_singleton.1 hg]
    exact hf

end Storage.Made

/-- A loop whose steps keep the entities as they should be keeps them so. -/
theorem Chain.made {α : Type} {R : α → Workpiece → Workpiece → Prop} {steps : List α}
    (step : ∀ a ∈ steps, ∀ w w', R a w w' → w.entities.Made schema P → w'.entities.Made schema P)
    (h : Chain R steps w w') : w.entities.Made schema P → w'.entities.Made schema P :=
  Chain.lift (T := fun w w' => w.entities.Made schema P → w'.entities.Made schema P)
    (fun _ h => h) (fun h₁ h₂ h => h₂ (h₁ h)) step h

/-- Fields of a fragment are copied. -/
theorem Copies.made {fragment : Fragment} (hF : fragment.entities.Made schema P) {depth : Nat}
    {target source : Location} {condition : Name}
    (h : Copies schema fragment depth target source condition w w')
    (hw : w.entities.Made schema P) : w'.entities.Made schema P := by
  induction depth generalizing target source condition w w' with
  | zero => exact h ▸ hw
  | succ depth ih =>
    unfold Copies at h
    cases he : fragment.entities.find? source with
    | none =>
      rw [he] at h
      exact h ▸ hw
    | some e =>
      rw [he] at h
      obtain ⟨merged, hmade, hP⟩ := hw.entity target
      refine h.made (fun x hx v v' hcopy hv => ?_) (hw.put (hmade.noted _) hP)
      have hPx : P x.key x.name := hF.field he hx
      cases hcopy with
      | skip => exact hv
      | leaf _ _ _ hm => exact hv.merge hm hPx
      | node _ _ _ hnested hm => exact (ih hnested hv).merge hm hPx

/-- Selections are entered, where the fragments are as they should be. -/
theorem Visits.made {G : Name → Fragment → Prop}
    (hG : ∀ name fragment, G name fragment → fragment.entities.Made schema P) {height : Nat}
    {location : Location} {condition : Name} {selections : List Selection}
    (hP : ∀ key name, Selects selections key name → P key name)
    (h : Visits schema G height location condition selections w w')
    (hw : w.entities.Made schema P) : w'.entities.Made schema P := by
  induction height generalizing location condition selections w w' with
  | zero =>
    obtain ⟨merged, hmade, hmerged⟩ := hw.entity location
    exact h ▸ hw.put hmade hmerged
  | succ height ih =>
    obtain ⟨normal, hnormal, hchain⟩ := h
    obtain ⟨merged, hmade, hmerged⟩ := hw.entity location
    refine hchain.made (fun n hn v v' hvisit hv => ?_) (hw.put hmade hmerged)
    have hemits := Selection.normalizeAll_emits selections hnormal n hn
    cases hvisit with
    | leaf _ _ _ hm => exact hv.merge hm (hP _ _ hemits.selects.1)
    | node _ _ _ hnested hm =>
      obtain ⟨hself, hinner⟩ := hemits.selects
      exact (ih (fun key name hk => hP key name (hinner key name hk)) hnested hv).merge hm
        (hP _ _ hself)
    | spread hg _ hcopies =>
      exact hcopies.made (fun c _ v v' hcopy hv => hcopy.made (hG _ _ hg) hv) hv
    | unreachable => exact hv

end

section
variable {schema : Schema} {document : Document} {u : CompiledUnit}

/-- Every entity of a unit is made of fields that the unit or a fragment selects. -/
theorem Yields.made (hs : schema.Coherent) (h : Yields schema document u) :
    u.entities.Made schema (u.Selects document) := by
  refine Yields.induction (P := fun u => u.entities.Made schema (u.Selects document)) hs
    (fun u hw => ?_) h
  refine hw.visits.made (fun name f hg => ?_) (fun key name hk => .inl hk) .empty
  obtain ⟨hdefines, hmade⟩ := hg
  have hd : document.Defines name f.definition := (hdefines _).2 rfl
  intro l e he
  obtain ⟨merged, hmerged, hP⟩ := hmade l e he
  refine ⟨merged, hmerged, fun g hg => ?_⟩
  rcases hP g hg with hk | hk
  · exact .inr ⟨name, f.definition, hd, hk⟩
  · exact .inr hk

/-- Where each response key stands for one field, every field of a unit has the name that was
selected. -/
theorem Yields.name_eq (hs : schema.Coherent) (h : Yields schema document u) {names : Name → Name}
    (hnames : ∀ key name, u.Selects document key name → name = names key) {l : Location}
    {e : Entity} (he : u.entities.find? l = some e) {x : EntityField} (hx : x ∈ e.fields.values) :
    x.name = names x.key :=
  hnames _ _ ((h.made hs).field he hx)

end

/-! ## Two fields under one response key

A union of two object types that have no field in common. The operation selects a field of each,
both under the same response key. -/

namespace Sounds

open Grammar (Definition)
open Sample (field type place)

/-- The definitions of the schema. -/
def definitions : List Definition := [
  type "Cat" (.object [] [field "meow" (.named "String")]),
  type "Dog" (.object [] [field "bark" (.named "String")]),
  type "Pet" (.union ["Cat", "Dog"]),
  type "Query" (.object [] [field "pet" (.named "Pet")])]

/-- The definitions make up a schema. -/
theorem build?_isSome : (Sample.build? definitions).isSome = true := by decide +kernel

/-- The schema. -/
def schema : Schema := (Sample.build? definitions).get build?_isSome

/-- The selection of the sound that values of an object type make. -/
def soundOf (c name : Name) : Selection :=
  .inline (some c) place [.field (some "sound") name place []]

/-- The operation. -/
def operation : OperationDefinition where
  location := place
  kind := .query
  name := none
  selections := [.field none "pet" place [soundOf "Cat" "meow", soundOf "Dog" "bark"]]

/-- The document. -/
def document : Document where
  file := none
  fragments := []
  operations := [operation]

/-- The operation can be compiled. -/
theorem compile?_isSome : (Sample.compile? schema document operation).isSome = true := by
  decide +kernel

/-- The compiled operation. -/
@[irreducible]
def compiled : Operation := (Sample.compile? schema document operation).get compile?_isSome

/-- Where the pet is found. -/
def pet : Location := (Location.ofOperation none "Query").append "pet" "Pet"

/-- The sound as it is merged into the entity there. -/
def sound (c name : Name) : EntityField := .single "sound" name (.named "String" true) none c

/-- The sounds are merged one after the other. -/
theorem merged : (Sample.returned? (([sound "Cat" "meow", sound "Dog" "bark"].foldlM
    Entity.mergeField (Entity.new pet) : LookupM schema BuildError Entity)
    (.fresh schema))).isSome = true := by
  decide +kernel

/-- The bark of the dog is merged into the meow of the cat and held under that name, which the dog
has no field of. So it is where the document is compiled. -/
theorem bark_held_as_meow : ∃ (e e' : Entity) (m : EntityField),
    e.MadeOf schema [sound "Cat" "meow"] ∧
    Gives (e.mergeField (sound "Dog" "bark") : LookupM schema BuildError Entity) e' ∧
    e'.fields.find? (sound "Dog" "bark").fieldKey = some m ∧ m.name = "meow" ∧
    ¬ m.name = (sound "Dog" "bark").name ∧ schema.fieldType? "Dog" "meow" = none ∧
    (compiled.entities.find? pet).any (fun e => e.fields.values.map (fun x =>
      (x.key, x.name, x.conditions.toList)) = [("sound", "meow", ["Cat", "Dog"])]) = true := by
  obtain ⟨⟨e', s'⟩, hboth⟩ := Option.isSome_iff_exists.1 merged
  have hboth : Gives ([sound "Cat" "meow", sound "Dog" "bark"].foldlM Entity.mergeField
      (Entity.new pet) : LookupM schema BuildError Entity) e' :=
    ⟨_, _, Sample.returned?_eq_some hboth⟩
  obtain ⟨e, hmeow, hrest⟩ := hboth.of_bind
  obtain ⟨e₁, hbark, hlast⟩ := hrest.of_bind
  cases hlast.of_pure
  have hmade : e.MadeOf schema [sound "Cat" "meow"] := (Entity.MadeOf.new pet).mergeField hmeow
  obtain ⟨m, first, hm, hfirst, hname, hiff, -⟩ := hmade.name_held hbark
  have hmeow : m.name = "meow" := by
    rw [hname]
    cases hfirst
    rfl
  refine ⟨e, e', m, hmade, hbark, hm, hmeow, fun hbark => ?_, by decide +kernel, by decide +kernel⟩
  exact absurd (hiff.1 hbark _ rfl) (by decide)

end Sounds

end EntityGraph
