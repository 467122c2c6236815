import EntityGraph.Proofs.Document.Dissolving
import EntityGraph.Proofs.Unit.Overlays
import EntityGraph.Proofs.Walk.Collecting
import Mathlib.Logic.Relation

/-!
# Copies of fragments

What copying a compiled fragment to a location of a unit comes to. The copy follows the fields of
the fragment (`Fragment.Step`). Those of its root entity are narrowed to the condition of the
spread, and are left out if nothing is left of them. Further down every field is kept, because its
entity is copied under its own type (`EntityField.Fits.kept`). So each entity that the copy gets to
(`Fragment.Copied`) obtains what the one of the fragment has (`Entity.Obtains`), and nothing else
changes (`Workpiece.Grafted`). A copy is a sequence of merges at the paths it gets to
(`copyWithin_overlays`), and to a unit that absorbs these merges it does nothing
(`copyWithin_idle`). Main statement: `Yields.copyFragment_exact`.
-/

namespace EntityGraph

open Conditions (Cover)
open LookupM (Gives)
open Relation (ReflTransGen)

/-! ## Paths of a copy -/

/-- The step from an entity to where its field leads. -/
def EntityField.step (x : EntityField) : LocationStep := ⟨x.key, x.type.innermostName⟩

/-- A path and one more step. -/
@[simp] theorem Location.extend_step (l : Location) (p : List LocationStep) (x : EntityField) :
    l.extend (p ++ [x.step]) = (l.extend p).append x.key x.type.innermostName := by
  simp [extend, append, EntityField.step]

section
variable (schema : Schema)

/-- Something is left of the conditions of the field when they are narrowed to `c`. -/
def EntityField.Kept (x : EntityField) (c : Name) : Prop := ∃ n, Narrowed schema x.conditions c n

namespace Fragment

variable (F : Fragment)

/-- One step of a copy: from the entity at a path that is copied under a condition, along a field
that is kept under it, to the entity that the field leads to, which is copied under its own type. -/
def Step (a b : List LocationStep × Name) : Prop :=
  ∃ key x, F.entities.field? (F.rootLocation.extend a.1) key = some x ∧ x.Kept schema a.2 ∧
    x.child.isSome = true ∧ b = (a.1 ++ [x.step], x.step.typeName)

/-- Where a copy gets to that starts at a path and under a condition. -/
def places (a : List LocationStep × Name) : Set (List LocationStep) :=
  {q | ∃ c, ReflTransGen (F.Step schema) a (q, c)}

/-- What a field of the fragment gives to the entity at `l`, under `c`. -/
def gift (l : Location) (c : Name) (x : EntityField) : Set EntityField :=
  {f | ∃ cs, Gives (narrowConditions x.conditions.toList c : LookupM schema LookupError _) cs ∧
    cs.isEmpty = false ∧ f = { x with child := schema.handle? l x.fieldKey, conditions := cs }}

/-- What a copy to `L` gives to the entity at the path `q` below it, where the copy starts at a path
and under a condition. -/
def gifts (L : Location) (a : List LocationStep × Name) (q : List LocationStep) :
    Set EntityField :=
  {f | ∃ c key x, ReflTransGen (F.Step schema) a (q, c) ∧
    F.entities.field? (F.rootLocation.extend q) key = some x ∧ f ∈ gift schema (L.extend q) c x}

end Fragment

end

/-- The fragments that are noted with an entity when the one at a path of the fragment is copied to
it. -/
def Fragment.notesAt (F : Fragment) (p : List LocationStep) : List Name :=
  match F.entities.find? (F.rootLocation.extend p) with
  | some e => F.name :: e.mergedFragments.toList
  | none => [F.name]

section
variable {schema : Schema} {F : Fragment} {L : Location} {p q : List LocationStep} {c : Name}
  {x : EntityField} {e : Entity} {depth : Nat} {w w' : Workpiece} {I : Registry → Prop}

/-- A field is kept if and only if its narrowed conditions are not empty. -/
theorem EntityField.kept_iff (hx : ∀ n ∈ x.conditions, schema.Composite n)
    (hc : schema.Composite c) {cs : OrderedSet Name}
    (hcs : Gives (narrowConditions x.conditions.toList c : LookupM schema LookupError _) cs) :
    x.Kept schema c ↔ cs.isEmpty = false := by
  obtain ⟨cs', hanswers, hmem⟩ := narrowConditions_answers hx hc
  cases (narrowConditions_steady _ c).unique hcs hanswers.gives
  have hnarrowed : ∀ n, n ∈ cs ↔ Narrowed schema x.conditions c n := hmem
  rw [EntityField.Kept, OrderedSet.isEmpty, List.isEmpty_eq_false_iff_exists_mem]
  exact exists_congr fun n => (hnarrowed n).symm

/-- A copy that starts at an entity takes place there and where its kept fields lead. -/
theorem Fragment.reaches_iff (he : F.entities.find? (F.rootLocation.extend p) = some e)
    {b : List LocationStep × Name} :
    ReflTransGen (F.Step schema) (p, c) b ↔ b = (p, c) ∨ ∃ x ∈ e.fields.values,
      x.Kept schema c ∧ x.child.isSome = true ∧
        ReflTransGen (F.Step schema) (p ++ [x.step], x.step.typeName) b := by
  -- the copy recurses into what its fields lead to, so its paths are split after the first step
  rw [ReflTransGen.cases_head_iff]
  refine or_congr eq_comm ⟨?_, ?_⟩
  · rintro ⟨b', ⟨key, x, hx, hkept, hchild, rfl⟩, hrest⟩
    obtain ⟨e', he', hfind⟩ := Storage.field?_eq_some_iff.1 hx
    cases he.symm.trans he'
    exact ⟨x, Dict.mem_values_iff.2 ⟨key, hfind⟩, hkept, hchild, hrest⟩
  · rintro ⟨x, hx, hkept, hchild, hrest⟩
    obtain ⟨key, hfind⟩ := Dict.mem_values_iff.1 hx
    exact ⟨_, ⟨key, x, Storage.field?_eq_some_iff.2 ⟨e, he, hfind⟩, hkept, hchild, rfl⟩, hrest⟩

/-- Where a field of the entity at `p` leads to is ready one level further. -/
theorem Fragment.Ready.step (hr : F.Ready (depth + 1) (F.rootLocation.extend p))
    (hF : F.unit.Formed schema) {key : FieldKey}
    (hx : F.entities.field? (F.rootLocation.extend p) key = some x)
    (hchild : x.child.isSome = true) :
    schema.Composite x.step.typeName ∧ F.Ready depth (F.rootLocation.extend (p ++ [x.step])) := by
  obtain ⟨l, hl⟩ := Option.isSome_iff_exists.1 hchild
  obtain ⟨hready, rfl, hcomp⟩ := hr.child hF hx hl
  rw [Location.extend_step]
  exact ⟨hcomp, hready⟩

/-! ## The copy -/

/-- A field that leads nowhere does so at every location. -/
theorem EntityField.Fits.handle?_eq_none {source : Location} (hx : x.Fits schema source)
    (hchild : x.child = none) (l : Location) : schema.handle? l x.fieldKey = none := by
  rw [hx.child, Schema.handle?_eq_none_iff] at hchild
  exact Schema.handle?_eq_none_iff.2 hchild

/-- A field that leads somewhere does so at every location. -/
theorem EntityField.Fits.handle?_eq_some {source child : Location} (hx : x.Fits schema source)
    (hchild : x.child = some child) (l : Location) :
    child = source.append x.key x.type.innermostName ∧
      schema.handle? l x.fieldKey = some (l.append x.key x.type.innermostName) := by
  obtain ⟨hcomp, rfl⟩ := Schema.handle?_eq_some_iff.1 (hx.child ▸ hchild)
  exact ⟨rfl, Schema.handle?_eq_some_iff.2 ⟨hcomp, rfl⟩⟩

/-- What a field gives if its conditions can be narrowed. -/
theorem Fragment.mem_gift_iff {l : Location} {cs : OrderedSet Name} {f : EntityField}
    (hcs : Gives (narrowConditions x.conditions.toList c : LookupM schema LookupError _) cs) :
    f ∈ gift schema l c x ↔ cs.isEmpty = false ∧
      f = { x with child := schema.handle? l x.fieldKey, conditions := cs } := by
  constructor
  · rintro ⟨cs', hcs', hne, rfl⟩
    cases (narrowConditions_steady _ c).unique hcs hcs'
    exact ⟨hne, rfl⟩
  · rintro ⟨hne, rfl⟩
    exact ⟨cs, hcs, hne, rfl⟩

/-- Where a copy gets to along one field of the entity at `p`. -/
def Fragment.placesAlong (schema : Schema) (F : Fragment) (p : List LocationStep) (c : Name)
    (x : EntityField) : Set (List LocationStep) :=
  {q | x.Kept schema c ∧ x.child.isSome = true ∧
    q ∈ F.places schema (p ++ [x.step], x.step.typeName)}

/-- What a copy gives because of one field of the entity at `p`. -/
def Fragment.giftsAlong (schema : Schema) (F : Fragment) (L : Location) (p : List LocationStep)
    (c : Name) (x : EntityField) (q : List LocationStep) : Set EntityField :=
  {f | q = p ∧ f ∈ gift schema (L.extend p) c x ∨ x.Kept schema c ∧ x.child.isSome = true ∧
    f ∈ F.gifts schema L (p ++ [x.step], x.step.typeName) q}

/-- A field is copied, where the entity that it leads to is copied as it should. -/
theorem copyField_overlays (hx : x.Fits schema (F.rootLocation.extend p)) (hc : schema.Composite c)
    (ih : x.child.isSome = true → ∀ w, UnitM.Does I (copyWithin F depth (L.extend (p ++ [x.step]))
      (F.rootLocation.extend (p ++ [x.step])) x.step.typeName : UnitM schema Unit) w fun _ w' =>
        Workpiece.Overlaid schema L F.notesAt (F.places schema (p ++ [x.step], x.step.typeName))
          (F.gifts schema L (p ++ [x.step], x.step.typeName)) w w') :
    UnitM.Does I (copyField (copyWithin F depth) (L.extend p) c x : UnitM schema Unit) w fun _ w' =>
      L.extend p ∈ w.entities.keys → Workpiece.Overlaid schema L F.notesAt
        (F.placesAlong schema p c x) (F.giftsAlong schema L p c x) w w' := by
  refine UnitM.Does.ask.bind fun cs w₁ ⟨hcs, hw⟩ => ?_
  subst hw
  have hkept : x.Kept schema c ↔ cs.isEmpty = false := x.kept_iff hx.composite hc hcs
  split
  · next hempty =>
    have hnot : ¬ x.Kept schema c := by simp [hkept, hempty]
    refine .pure fun _ => (Workpiece.Overlaid.refl _).congr (fun q => ?_) fun q f => ?_
    · simp [Fragment.placesAlong, hnot]
    · simp [Fragment.giftsAlong, hnot, Fragment.mem_gift_iff hcs, hempty]
  · next hne =>
    have hne : cs.isEmpty = false := by simpa using hne
    have hgift : ∀ f, f ∈ Fragment.gift schema (L.extend p) c x ↔ f =
        { x with child := schema.handle? (L.extend p) x.fieldKey, conditions := cs } := fun f => by
      rw [Fragment.mem_gift_iff hcs, and_iff_right hne]
    cases hchild : x.child with
    | none =>
      have hhandle := hx.handle?_eq_none hchild (L.extend p)
      refine mergeAt_puts.mono fun _ w₂ ⟨e, he, hw₂⟩ hp => ?_
      subst hw₂
      refine (Workpiece.Overlaid.merge hp he hhandle.symm).congr (fun q => ?_) fun q f => ?_
      · simp [Fragment.placesAlong, hchild]
      · simp [Fragment.giftsAlong, hchild, hgift, hhandle]
    | some source =>
      obtain ⟨rfl, hhandle⟩ := hx.handle?_eq_some hchild (L.extend p)
      have hsome : x.child.isSome = true := by simp [hchild]
      have hnested := ih hsome w₁
      rw [Location.extend_step, Location.extend_step] at hnested
      simp only [Location.typeName_append]
      refine hnested.bind fun _ w₂ hw₂ => ?_
      refine mergeAt_puts.mono fun _ w₃ ⟨e, he, hw₃⟩ hp => ?_
      subst hw₃
      have hp₂ : L.extend p ∈ w₂.entities.keys := (hw₂.keys _).2 (.inl hp)
      refine (hw₂.trans (.merge hp₂ he hhandle.symm)).congr (fun q => ?_) fun q f => ?_
      · simp [Fragment.placesAlong, hsome, hkept, hne]
      · simp [Fragment.giftsAlong, hsome, hkept, hne, hgift, hhandle, or_comm]

/-- Below an entity of a fragment a copy gets along its fields. -/
theorem Fragment.mem_places_iff (he : F.entities.find? (F.rootLocation.extend p) = some e) :
    q ∈ F.places schema (p, c) ↔
      q = p ∨ ∃ x ∈ e.fields.values, q ∈ F.placesAlong schema p c x := by
  constructor
  · rintro ⟨c', h⟩
    rcases (F.reaches_iff he).1 h with heq | ⟨x, hx, hkept, hchild, hrest⟩
    · cases heq
      exact .inl rfl
    · exact .inr ⟨x, hx, hkept, hchild, c', hrest⟩
  · rintro (rfl | ⟨x, hx, hkept, hchild, c', hrest⟩)
    · exact ⟨c, .refl⟩
    · exact ⟨c', (F.reaches_iff he).2 (.inr ⟨x, hx, hkept, hchild, hrest⟩)⟩

/-- What an entity of a fragment gives is given because of its fields. -/
theorem Fragment.mem_gifts_iff (he : F.entities.find? (F.rootLocation.extend p) = some e)
    {f : EntityField} :
    f ∈ F.gifts schema L (p, c) q ↔
      ∃ x ∈ e.fields.values, f ∈ F.giftsAlong schema L p c x q := by
  constructor
  · rintro ⟨c', key, y, h, hy, hf⟩
    rcases (F.reaches_iff he).1 h with heq | ⟨x, hx, hkept, hchild, hrest⟩
    · cases heq
      obtain ⟨e', he', hfind⟩ := Storage.field?_eq_some_iff.1 hy
      cases he.symm.trans he'
      exact ⟨y, Dict.mem_values_iff.2 ⟨key, hfind⟩, .inl ⟨rfl, hf⟩⟩
    · exact ⟨x, hx, .inr ⟨hkept, hchild, c', key, y, hrest, hy, hf⟩⟩
  · rintro ⟨x, hx, ⟨rfl, hf⟩ | ⟨hkept, hchild, c', key, y, hrest, hy, hf⟩⟩
    · obtain ⟨key, hfind⟩ := Dict.mem_values_iff.1 hx
      exact ⟨c, key, x, .refl, Storage.field?_eq_some_iff.2 ⟨e, he, hfind⟩, hf⟩
    · exact ⟨c', key, y, (F.reaches_iff he).2 (.inr ⟨x, hx, hkept, hchild, hrest⟩), hy, hf⟩

/-- A copy enters the entities that it gets to, and merges there what the fragment gives. -/
theorem copyWithin_overlays (hF : F.unit.Formed schema) (hc : schema.Composite c)
    (hr : F.Ready depth (F.rootLocation.extend p)) :
    UnitM.Does I (copyWithin F depth (L.extend p) (F.rootLocation.extend p) c :
      UnitM schema Unit) w fun _ w' => Workpiece.Overlaid schema L F.notesAt
        (F.places schema (p, c)) (F.gifts schema L (p, c)) w w' := by
  induction depth generalizing p c w with
  | zero => exact absurd rfl (hr.ne_zero hF)
  | succ depth ih =>
    obtain ⟨e, he⟩ := Dict.mem_keys_iff.1 hr.mem
    have hform := hF.formed.entities _ e he
    unfold copyWithin
    rw [he]
    refine entityAt_does.bind fun known w₁ hknown => ?_
    obtain ⟨rfl, rfl⟩ := hknown
    refine UnitM.Does.modify.bind fun _ w₂ hw₂ => ?_
    have hput : w₂ = w.put (L.extend p) { w.entity (L.extend p) with
        mergedFragments := (w.entity (L.extend p)).mergedFragments.insertAll (F.notesAt p) } := by
      rw [hw₂, Fragment.notesAt, he]
      exact Workpiece.put_put ..
    have hnote : Workpiece.Overlaid schema L F.notesAt {p} (fun _ => ∅) w w₂ := hput ▸ .note w p
    refine (UnitM.Does.forM fun x hx w => copyField_overlays ?_ hc fun hchild w => ?_).mono ?_
    · obtain ⟨key, hfind⟩ := Dict.mem_values_iff.1 hx
      exact hform.fits key x hfind
    · obtain ⟨key, hfind⟩ := Dict.mem_values_iff.1 hx
      obtain ⟨hcomp, hready⟩ := hr.step hF (Storage.field?_eq_some_iff.2 ⟨e, he, hfind⟩) hchild
      exact ih hcomp hready
    · intro _ w' hchain
      have hp : L.extend p ∈ w₂.entities.keys := (hnote.keys _).2 (.inr ⟨p, rfl, rfl⟩)
      have hloop := Workpiece.Overlaid.chain (fun x _ v v' h hv => h hv) hchain hp
      refine (hnote.trans hloop).congr (fun q => ?_) fun q f => ?_
      · rw [Fragment.mem_places_iff he]
        rfl
      · rw [Fragment.mem_gifts_iff he]
        simp

/-! ## Copying again -/

/-- A loop whose steps leave the unit as it is does so as well. -/
theorem UnitM.Does.forM_idle {α : Type} {f : α → UnitM schema Unit} :
    ∀ {l : List α}, (∀ a ∈ l, UnitM.Does I (f a) w fun _ w' => w' = w) →
      UnitM.Does I (l.forM f) w fun _ w' => w' = w
  | [], _ => .pure rfl
  | a :: _, h => .bind (h a (.head _)) fun _ _ h₁ =>
    h₁ ▸ forM_idle fun b hb => h b (List.mem_cons_of_mem _ hb)

/-- A field whose gift is absorbed is copied without a change. -/
theorem copyField_idle (hx : x.Fits schema (F.rootLocation.extend p)) (hc : schema.Composite c)
    (hp : L.extend p ∈ w.entities.keys)
    (habsorbs : ∀ f ∈ F.giftsAlong schema L p c x p, (w.entity (L.extend p)).Absorbs schema f)
    (ih : x.Kept schema c → x.child.isSome = true →
      UnitM.Does I (copyWithin F depth (L.extend (p ++ [x.step]))
        (F.rootLocation.extend (p ++ [x.step])) x.step.typeName : UnitM schema Unit) w
          fun _ w' => w' = w) :
    UnitM.Does I (copyField (copyWithin F depth) (L.extend p) c x : UnitM schema Unit) w
      fun _ w' => w' = w := by
  have hmerge : ∀ {cs : OrderedSet Name} {child : Option Location},
      Gives (narrowConditions x.conditions.toList c : LookupM schema LookupError _) cs →
      cs.isEmpty = false → child = schema.handle? (L.extend p) x.fieldKey →
      UnitM.Does I (UnitM.mergeAt (L.extend p) { x with child, conditions := cs } :
        UnitM schema Unit) w fun _ w' => w' = w := by
    rintro cs child hcs hne rfl
    have hgift := habsorbs _ (.inl ⟨rfl, (Fragment.mem_gift_iff hcs).2 ⟨hne, rfl⟩⟩)
    refine mergeAt_puts.mono fun _ w' ⟨e, he, hw'⟩ => ?_
    obtain ⟨known, hknown⟩ := Dict.mem_keys_iff.1 hp
    rw [hw', hgift.mergeField_eq he, Workpiece.put_entity hknown]
  refine UnitM.Does.ask.bind fun cs w₁ ⟨hcs, hw⟩ => ?_
  subst hw
  split
  · exact .pure rfl
  · next hne =>
    have hne : cs.isEmpty = false := by simpa using hne
    cases hchild : x.child with
    | none => exact hmerge hcs hne (hx.handle?_eq_none hchild _).symm
    | some source =>
      obtain ⟨rfl, hhandle⟩ := hx.handle?_eq_some hchild (L.extend p)
      have hnested := ih ((x.kept_iff hx.composite hc hcs).2 hne) (by simp [hchild])
      rw [Location.extend_step, Location.extend_step] at hnested
      simp only [Location.typeName_append]
      refine hnested.bind fun _ w₂ hw₂ => ?_
      subst hw₂
      exact hmerge hcs hne hhandle.symm

/-- A copy to a unit that has already what the copy gives changes nothing. -/
theorem copyWithin_idle (hF : F.unit.Formed schema) (hc : schema.Composite c)
    (hr : F.Ready depth (F.rootLocation.extend p))
    (hw : w.Absorbs schema L F.notesAt (F.places schema (p, c)) (F.gifts schema L (p, c))) :
    UnitM.Does I (copyWithin F depth (L.extend p) (F.rootLocation.extend p) c :
      UnitM schema Unit) w fun _ w' => w' = w := by
  induction depth generalizing p c with
  | zero => exact absurd rfl (hr.ne_zero hF)
  | succ depth ih =>
    obtain ⟨e, he⟩ := Dict.mem_keys_iff.1 hr.mem
    have hform := hF.formed.entities _ e he
    have hplace : p ∈ F.places schema (p, c) := (Fragment.mem_places_iff he).2 (.inl rfl)
    have hp := hw.keys p hplace
    obtain ⟨known, hknown⟩ := Dict.mem_keys_iff.1 hp
    unfold copyWithin
    rw [he]
    refine entityAt_does.bind fun e' w₁ hentity => ?_
    rw [Workpiece.put_entity hknown] at hentity
    obtain ⟨rfl, rfl⟩ := hentity
    refine UnitM.Does.modify.bind fun _ w₂ hw₂ => ?_
    -- entering and noting leave the unit as it is, and so does each field
    have hput : w₂ = w₁ := by
      have hnoted := hw.noted p hplace
      rw [Fragment.notesAt, he] at hnoted
      have hsame : ((w₁.entity (L.extend p)).mergedFragments.insert F.name).insertAll
          e.mergedFragments.toList = (w₁.entity (L.extend p)).mergedFragments :=
        OrderedSet.insertAll_of_subset hnoted
      rw [hw₂, hsame]
      exact Workpiece.put_entity hknown
    subst hput
    refine .forM_idle fun x hx => ?_
    obtain ⟨key, hfind⟩ := Dict.mem_values_iff.1 hx
    refine copyField_idle (hform.fits key x hfind) hc hp (fun f hf => ?_) fun hkept hchild => ?_
    · exact hw.fields p f ((Fragment.mem_gifts_iff he).2 ⟨x, hx, hf⟩)
    · obtain ⟨hcomp, hready⟩ := hr.step hF (Storage.field?_eq_some_iff.2 ⟨e, he, hfind⟩) hchild
      have hplaces : ∀ q ∈ F.places schema (p ++ [x.step], x.step.typeName),
          q ∈ F.places schema (p, c) := fun q hq =>
        (Fragment.mem_places_iff he).2 (.inr ⟨x, hx, hkept, hchild, hq⟩)
      refine ih hcomp hready ⟨fun q hq => hw.keys q (hplaces q hq),
        fun q hq => hw.noted q (hplaces q hq), fun q f hf => hw.fields q f ?_⟩
      exact (Fragment.mem_gifts_iff he).2 ⟨x, hx, .inr ⟨hkept, hchild, hf⟩⟩

end

/-! ## What a copy comes to -/

section
variable (schema : Schema)

/-- The copy of a fragment under `m` gets to the path: it starts with a field of the root entity
that is kept under `m`, and goes on along any fields. -/
inductive Fragment.Copied (F : Fragment) (m : Name) : List LocationStep → Prop
  | root : Copied F m []
  | field {p : List LocationStep} {key : FieldKey} {x : EntityField} :
      Copied F m p → F.entities.field? (F.rootLocation.extend p) key = some x →
      (p = [] → x.Kept schema m) → x.child.isSome = true → Copied F m (p ++ [x.step])

/-- The entity `e'` is the entity `e` at `l` after `source` of the fragment `name` was copied to it:
the fields that `keeps` says, for the object types that `allows` says. -/
structure Entity.Obtains (l : Location) (name : Name) (source : Entity)
    (keeps : EntityField → Prop) (allows : Name → Prop) (e e' : Entity) : Prop where
  location : e'.location = e.location
  rootType : e'.rootType = e.rootType
  /-- The fragment is noted, and then what was noted with the source. -/
  noted : e'.mergedFragments =
    (e.mergedFragments.insert name).insertAll source.mergedFragments.toList
  /-- New fields come last. -/
  order : e.fields.keys <+: e'.fields.keys
  keys : ∀ key, key ∈ e'.fields.keys ↔
    key ∈ e.fields.keys ∨ ∃ x, source.fields.find? key = some x ∧ keeps x
  cover : ∀ key o, Cover schema (e'.conditionsAt key) o ↔
    Cover schema (e.conditionsAt key) o ∨ Cover schema (source.conditionsAt key) o ∧ allows o
  /-- A present field keeps its name and its link. -/
  present : ∀ key x, e.fields.find? key = some x → ∃ x', e'.fields.find? key = some x' ∧
    x'.fieldKey = x.fieldKey ∧ x'.name = x.name ∧
    (x'.child = x.child ∨ x'.child = (x.child <|> schema.handle? l key))
  /-- A new field is one of the source, and leads to the same place below `l`. -/
  added : ∀ key x', e.fields.find? key = none → e'.fields.find? key = some x' →
    ∃ x, source.fields.find? key = some x ∧ keeps x ∧
      x' = { x with child := schema.handle? l key, conditions := x'.conditions }

/-- The unit `w'` is `w` after the entities of the fragment were copied to `L`, under `m`. -/
structure Workpiece.Grafted (F : Fragment) (L : Location) (m : Name) (w w' : Workpiece) : Prop where
  referenced : w'.referenced = w.referenced
  /-- New entities come last. -/
  order : w.entities.keys <+: w'.entities.keys
  keys : ∀ l, l ∈ w'.entities.keys ↔
    l ∈ w.entities.keys ∨ ∃ p, F.Copied schema m p ∧ l = L.extend p
  /-- To `L` the root entity is copied, as far as `m` allows. -/
  root : ∃ e, F.entities.find? F.rootLocation = some e ∧
    Entity.Obtains schema L F.name e (·.Kept schema m) (schema.Possible m)
      (w.entity L) (w'.entity L)
  /-- Below `L` whole entities are copied. -/
  below : ∀ p, p ≠ [] → F.Copied schema m p →
    ∃ e, F.entities.find? (F.rootLocation.extend p) = some e ∧
      Entity.Obtains schema (L.extend p) F.name e (fun _ => True) (fun _ => True)
        (w.entity (L.extend p)) (w'.entity (L.extend p))
  elsewhere : ∀ l, (∀ p, F.Copied schema m p → l ≠ L.extend p) →
    w'.entities.find? l = w.entities.find? l

end

section
variable {schema : Schema} {document : Document} {F : Fragment} {L : Location} {m c : Name}
  {p : List LocationStep} {x : EntityField} {e before after : Entity} {w w' : Workpiece}

/-- Fields of one key and one name differ in their links and conditions only. -/
theorem EntityField.eq_of_fieldKey {x y : EntityField} (hkey : x.fieldKey = y.fieldKey)
    (hname : x.name = y.name) :
    x = { y with child := x.child, conditions := x.conditions } := by
  obtain ⟨hk, ht⟩ := FieldKey.mk.inj hkey
  cases x
  cases y
  simp_all

/-- A field of an entity is kept if it is narrowed to the type of the entity. -/
theorem EntityField.Fits.kept {l : Location} (hx : x.Fits schema l)
    (hl : schema.Composite l.typeName) : x.Kept schema l.typeName := by
  obtain ⟨d, hd⟩ := hx.nonempty
  obtain ⟨ns, hns⟩ := LookupM.intersect_answers (hx.composite d hd) hl
  exact ⟨d, d, hd, ns, hns.gives,
    (LookupM.mem_intersect_iff hns.gives).2 (.outer (hx.within d hd))⟩

/-- Where a copy gets to there is an entity, which is copied under the condition of the copy at the
start and under its own type further down. -/
theorem Fragment.reaches_formed (hF : F.unit.Formed schema) (hm : schema.Composite m)
    (h : ReflTransGen (F.Step schema) ([], m) (p, c)) :
    F.rootLocation.extend p ∈ F.entities.keys ∧ schema.Composite c ∧
      (p = [] ∧ c = m ∨ p ≠ [] ∧ c = (F.rootLocation.extend p).typeName) := by
  generalize hb : (p, c) = b at h
  induction h generalizing p c with
  | refl =>
    cases hb
    rw [Location.extend_nil]
    exact ⟨hF.mem, hm, .inl ⟨rfl, rfl⟩⟩
  | tail _ hstep ih =>
    obtain ⟨key, x, hx, -, hchild, rfl⟩ := hstep
    cases hb
    obtain ⟨e, he, hfind⟩ := Storage.field?_eq_some_iff.1 hx
    have hfits := (hF.formed.entities _ e he).fits key x hfind
    obtain ⟨l, hl⟩ := Option.isSome_iff_exists.1 hchild
    obtain ⟨hcomp, rfl⟩ := Schema.handle?_eq_some_iff.1 (hfits.child ▸ hl)
    rw [Location.extend_step, Location.typeName_append]
    exact ⟨hF.formed.handles _ key x _ hx hl, hcomp, .inr ⟨by simp, rfl⟩⟩

/-- A copy gets to the paths that are copied. -/
theorem Fragment.mem_places_iff_copied (hF : F.unit.Formed schema) (hm : schema.Composite m) :
    p ∈ F.places schema ([], m) ↔ F.Copied schema m p := by
  constructor
  · rintro ⟨c, h⟩
    generalize hb : (p, c) = b at h
    induction h generalizing p c with
    | refl =>
      cases hb
      exact .root
    | @tail b _ hreach hstep ih =>
      obtain ⟨key, x, hx, hkept, hchild, rfl⟩ := hstep
      cases hb
      obtain ⟨-, -, ⟨-, heq⟩ | ⟨hne, -⟩⟩ := reaches_formed hF hm hreach
      · exact .field (ih _ rfl) hx (fun _ => heq ▸ hkept) hchild
      · exact .field (ih _ rfl) hx (fun hnil => absurd hnil hne) hchild
  · intro h
    induction h with
    | root => exact ⟨m, .refl⟩
    | @field p key x _ hx hkept hchild ih =>
      obtain ⟨c, hreach⟩ := ih
      obtain ⟨e, he, hfind⟩ := Storage.field?_eq_some_iff.1 hx
      have hform := hF.formed.entities _ e he
      refine ⟨x.step.typeName, hreach.tail ⟨key, x, hx, ?_, hchild, rfl⟩⟩
      obtain ⟨-, -, ⟨hnil, rfl⟩ | ⟨-, rfl⟩⟩ := reaches_formed hF hm hreach
      · exact hkept hnil
      · exact (hform.fits key x hfind).kept hform.composite

/-- What the fragment gives to an entity of the copy. -/
theorem Fragment.mem_gifts_iff_of_reaches (hF : F.unit.Formed schema) (hm : schema.Composite m)
    (h : ReflTransGen (F.Step schema) ([], m) (p, c))
    (he : F.entities.find? (F.rootLocation.extend p) = some e) {f : EntityField} :
    f ∈ F.gifts schema L ([], m) p ↔
      ∃ key x, e.fields.find? key = some x ∧ f ∈ gift schema (L.extend p) c x := by
  have hcondition : ∀ c', ReflTransGen (F.Step schema) ([], m) (p, c') → c' = c := by
    intro c' h'
    obtain ⟨-, -, ⟨hp, rfl⟩ | ⟨hp, rfl⟩⟩ := reaches_formed hF hm h <;>
      obtain ⟨-, -, ⟨hp', rfl⟩ | ⟨hp', rfl⟩⟩ := reaches_formed hF hm h'
    · rfl
    · exact absurd hp hp'
    · exact absurd hp' hp
    · rfl
  constructor
  · rintro ⟨c', key, x, h', hx, hf⟩
    obtain ⟨e', he', hfind⟩ := Storage.field?_eq_some_iff.1 hx
    cases he.symm.trans he'
    exact ⟨key, x, hfind, hcondition c' h' ▸ hf⟩
  · rintro ⟨key, x, hfind, hf⟩
    exact ⟨c, key, x, h, Storage.field?_eq_some_iff.2 ⟨e, he, hfind⟩, hf⟩

section
variable {source l : Location} {key : FieldKey} {o : Name} {A : Set EntityField}

/-- A field gives something if and only if it is kept. -/
theorem EntityField.Fits.exists_gift_iff (hx : x.Fits schema source) (hc : schema.Composite c) :
    (∃ f, f ∈ Fragment.gift schema l c x) ↔ x.Kept schema c := by
  obtain ⟨cs, hcs, -⟩ := narrowConditions_answers hx.composite hc
  rw [x.kept_iff hx.composite hc hcs.gives]
  simp only [Fragment.mem_gift_iff hcs.gives, exists_and_left, exists_eq, and_true]

/-- A field gives what it covers, as far as the condition allows. -/
theorem EntityField.Fits.cover_gift_iff (hs : schema.Coherent) (hx : x.Fits schema source)
    (hc : schema.Composite c) :
    (∃ f ∈ Fragment.gift schema l c x, Cover schema f.conditions o) ↔
      Cover schema x.conditions o ∧ schema.Possible c o := by
  obtain ⟨cs, hcs, -⟩ := narrowConditions_answers hx.composite hc
  have hcover : Cover schema cs o ↔ Cover schema x.conditions o ∧ schema.Possible c o :=
    (narrowConditions_gives hs hx.composite hcs.gives).cover o
  rw [← hcover]
  constructor
  · rintro ⟨f, hf, hfo⟩
    obtain ⟨-, rfl⟩ := (Fragment.mem_gift_iff hcs.gives).1 hf
    exact hfo
  · intro h
    have hne : cs.isEmpty = false := by
      obtain ⟨n, hn, -⟩ := h
      rw [OrderedSet.isEmpty, List.isEmpty_eq_false_iff_exists_mem]
      exact ⟨n, hn⟩
    exact ⟨_, (Fragment.mem_gift_iff hcs.gives).2 ⟨hne, rfl⟩, h⟩

/-- What the fields of an entity give under a key is given by the field of that key. -/
theorem Entity.Formed.gift_at_iff (he : e.Formed schema source)
    (hA : ∀ f, f ∈ A ↔ ∃ key x, e.fields.find? key = some x ∧ f ∈ Fragment.gift schema l c x)
    {P : EntityField → Prop} :
    (∃ f ∈ A, f.fieldKey = key ∧ P f) ↔
      ∃ x, e.fields.find? key = some x ∧ ∃ f ∈ Fragment.gift schema l c x, P f := by
  have hkey : ∀ key x f, e.fields.find? key = some x → f ∈ Fragment.gift schema l c x →
      f.fieldKey = key := by
    rintro key x f hx ⟨cs, -, -, rfl⟩
    exact he.keyed key x hx
  constructor
  · rintro ⟨f, hf, rfl, hP⟩
    obtain ⟨key, x, hx, hf⟩ := (hA f).1 hf
    exact ⟨x, by rw [hkey key x f hx hf, hx], f, hf, hP⟩
  · rintro ⟨x, hx, f, hf, hP⟩
    exact ⟨f, (hA f).2 ⟨key, x, hx, hf⟩, hkey key x f hx hf, hP⟩

/-- What an entity obtains that receives the gifts of another one. -/
theorem Entity.Receives.obtains (hs : schema.Coherent) {name : Name} (he : e.Formed schema source)
    (hc : schema.Composite c)
    (hA : ∀ f, f ∈ A ↔ ∃ key x, e.fields.find? key = some x ∧ f ∈ Fragment.gift schema l c x)
    (h : Receives schema l A before after)
    (hnoted : after.mergedFragments =
      (before.mergedFragments.insert name).insertAll e.mergedFragments.toList) :
    Obtains schema l name e (·.Kept schema c) (schema.Possible c) before after where
  location := h.location
  rootType := h.rootType
  noted := hnoted
  order := h.order
  keys key := by
    have hgiven : (∃ f ∈ A, f.fieldKey = key) ↔
        ∃ x, e.fields.find? key = some x ∧ ∃ f, f ∈ Fragment.gift schema l c x := by
      simpa using he.gift_at_iff hA (P := fun _ => True)
    rw [h.keys, hgiven]
    refine or_congr_right (exists_congr fun x => and_congr_right fun hx => ?_)
    exact (he.fits key x hx).exists_gift_iff hc
  cover key o := by
    rw [h.cover, he.gift_at_iff hA]
    refine or_congr_right ?_
    cases hx : e.fields.find? key with
    | none => simp [conditionsAt, hx, Cover, ← OrderedSet.mem_toList]
    | some x => simpa [conditionsAt, hx] using (he.fits key x hx).cover_gift_iff hs hc
  present key x hx := by
    obtain ⟨x', hx', hkey, hname, hchild, -⟩ := h.present key x hx
    exact ⟨x', hx', hkey, hname, hchild⟩
  added key x' hnone hx' := by
    obtain ⟨f, hf, hfkey, hkey, hname, hchild⟩ := h.added key x' hnone hx'
    obtain ⟨x, hx, _, hgift, rfl⟩ := (he.gift_at_iff hA (P := (· = f))).1 ⟨f, hf, hfkey, rfl⟩
    have hfits := he.fits key x hx
    refine ⟨x, hx, (hfits.exists_gift_iff hc).1 ⟨_, hgift⟩, ?_⟩
    obtain ⟨cs, -, -, rfl⟩ := hgift
    rw [← hchild]
    exact EntityField.eq_of_fieldKey (hkey.trans (he.keyed key x hx).symm) hname

end

/-- Nothing else is said of an entity if other fields and object types are allowed that the source
does not have. -/
theorem Entity.Obtains.congr {l : Location} {name : Name} {keeps keeps' : EntityField → Prop}
    {allows allows' : Name → Prop}
    (h : Obtains schema l name e keeps allows before after)
    (hkeeps : ∀ key x, e.fields.find? key = some x → (keeps x ↔ keeps' x))
    (hallows : ∀ key o, Cover schema (e.conditionsAt key) o → (allows o ↔ allows' o)) :
    Obtains schema l name e keeps' allows' before after where
  location := h.location
  rootType := h.rootType
  noted := h.noted
  order := h.order
  keys key := (h.keys key).trans
    (or_congr_right (exists_congr fun x => and_congr_right (hkeeps key x)))
  cover key o := (h.cover key o).trans (or_congr_right (and_congr_right (hallows key o)))
  present := h.present
  added key x' hnone hx' := by
    obtain ⟨x, hx, hkept, heq⟩ := h.added key x' hnone hx'
    exact ⟨x, hx, (hkeeps key x hx).1 hkept, heq⟩

/-- A unit that was overlaid with a fragment is grafted. -/
theorem Workpiece.Overlaid.grafted (hs : schema.Coherent) (hF : F.unit.Formed schema)
    (hm : schema.Composite m)
    (h : Overlaid schema L F.notesAt (F.places schema ([], m)) (F.gifts schema L ([], m)) w w') :
    Grafted schema F L m w w' := by
  have hobtains : ∀ p c, ReflTransGen (F.Step schema) ([], m) (p, c) →
      ∃ e, F.entities.find? (F.rootLocation.extend p) = some e ∧
        e.Formed schema (F.rootLocation.extend p) ∧
        Entity.Obtains schema (L.extend p) F.name e (·.Kept schema c) (schema.Possible c)
          (w.entity (L.extend p)) (w'.entity (L.extend p)) := by
    intro p c hreach
    obtain ⟨hmem, hc, -⟩ := Fragment.reaches_formed hF hm hreach
    obtain ⟨e, he⟩ := Dict.mem_keys_iff.1 hmem
    have hform := hF.formed.entities _ e he
    refine ⟨e, he, hform, (h.receives p).obtains hs hform hc (fun f => ?_) ?_⟩
    · exact Fragment.mem_gifts_iff_of_reaches hF hm hreach he
    · rw [h.noted p ⟨c, hreach⟩, Fragment.notesAt, he]
      rfl
  refine ⟨h.referenced, h.order, fun l => ?_, ?_, fun p hp hcopied => ?_, fun l hl => ?_⟩
  · simp only [h.keys, Fragment.mem_places_iff_copied hF hm]
  · obtain ⟨e, he, -, hob⟩ := hobtains [] m .refl
    rw [Location.extend_nil] at he hob
    exact ⟨e, he, hob⟩
  · obtain ⟨c, hreach⟩ := (Fragment.mem_places_iff_copied hF hm).2 hcopied
    obtain ⟨e, he, hform, hob⟩ := hobtains p c hreach
    obtain ⟨-, -, ⟨hnil, -⟩ | ⟨-, rfl⟩⟩ := Fragment.reaches_formed hF hm hreach
    · exact absurd hnil hp
    -- the fields of an entity lie within its type, so narrowing them to it loses nothing
    refine ⟨e, he, hob.congr (fun key x hx => ?_) fun key o ho => ?_⟩
    · exact iff_true_intro ((hform.fits key x hx).kept hform.composite)
    · refine iff_true_intro ?_
      unfold Entity.conditionsAt at ho
      split at ho
      · next x hx =>
        obtain ⟨c, hc, ho⟩ := ho
        exact (hform.fits key x hx).within c hc o ho
      · obtain ⟨c, hc, -⟩ := ho
        cases hc
  · refine h.elsewhere l fun p heq => ?_
    have hnot : p ∉ F.places schema ([], m) := fun hmem =>
      hl p ((Fragment.mem_places_iff_copied hF hm).1 hmem) heq
    refine ⟨hnot, Set.eq_empty_of_forall_notMem ?_⟩
    rintro f ⟨c, key, x, hreach, -⟩
    exact hnot ⟨c, hreach⟩

/-- Copying a compiled fragment to any location of any unit, under a composite condition, adds
exactly the entities of the fragment, as far as the condition allows, and nothing else changes. If
it is copied once more, and that succeeds as well, nothing changes at all. -/
theorem Yields.copyFragment_exact (hs : schema.Built) (h : Yields schema document F.unit)
    (hm : schema.Composite m) {run run' : Run schema}
    (hcopy : copyFragment F L m w run = .ok ((), w') run') :
    Workpiece.Grafted schema F L m w w' ∧
      ∀ (run₁ run₂ : Run schema) w'',
        copyFragment F L m w' run₁ = .ok ((), w'') run₂ → w'' = w' := by
  have hF := h.formed hs.coherent
  have hready : F.Ready F.entities.size (F.rootLocation.extend []) := by
    rw [Location.extend_nil]
    exact hF.ready
  have hcopies : ∀ w, (copyFragment F L m w : RunM schema (Unit × Workpiece)) =
      copyWithin F F.entities.size (L.extend []) (F.rootLocation.extend []) m w := fun w => by
    rw [Location.extend_nil, Location.extend_nil]
    rfl
  rw [hcopies] at hcopy
  have hoverlaid : Workpiece.Overlaid schema L F.notesAt (F.places schema ([], m))
      (F.gifts schema L ([], m)) w w' :=
    (copyWithin_overlays hF hm hready).of_ok (I := fun _ => True) trivial hcopy
  refine ⟨hoverlaid.grafted hs.coherent hF hm, fun run₁ run₂ w'' hagain => ?_⟩
  rw [hcopies] at hagain
  exact (copyWithin_idle hF hm hready hoverlaid.absorbs).of_ok (I := fun _ => True) trivial hagain

end

/-! ## A copy into an operation

An operation selects only what the first branch of the fragment does. The fragment is copied to it
on the object type of that branch, and below the field that both branches enter the operation gains
what the second one selects. -/

namespace Branches

open Sample (place)

/-- What a new builder compiles the fragment to, if it does. -/
def parts? : Option Fragment := do
  let builder ← (Builder.new schema document).toOption
  let (f, _) ← Sample.returned? (Builder.buildFragment "Parts" builder)
  return f

/-- The fragment can be compiled. -/
theorem parts?_isSome : parts?.isSome = true := by decide +kernel

/-- The compiled fragment. -/
@[irreducible]
def parts : Fragment := parts?.get parts?_isSome

/-- The compiled fragment is a unit. -/
theorem parts_yields : Yields schema document parts.unit := by
  have h : parts? = some parts := by
    unfold parts
    exact (Option.some_get parts?_isSome).symm
  simp only [parts?, bind, Option.bind_eq_some_iff] at h
  obtain ⟨b, hb, ⟨f, b'⟩, hf, hparts⟩ := h
  cases hparts
  have hnew : Builder.new schema document = .ok b := by
    cases hn : Builder.new schema document with
    | error e => rw [hn] at hb; cases hb
    | ok b₀ => rw [hn] at hb; cases hb; rfl
  exact ((Builder.Reachable.new hnew).yields_unit built.coherent (Sample.returned?_eq_some hf)).2

/-- The operation that selects the field on the object type itself. -/
def selective : OperationDefinition :=
  { operation with selections := [.field none "first" place (part "x")] }

/-- The operation can be compiled. -/
theorem selective?_isSome : (Sample.compile? schema document selective).isSome = true := by
  decide +kernel

/-- The entities of the operation. -/
@[irreducible]
def known : Workpiece :=
  let compiled := (Sample.compile? schema document selective).get selective?_isSome
  ⟨compiled.entities, compiled.referenced⟩

/-- Where the fragment is copied to. -/
def first : Location := (Location.ofOperation none "Query").append "first" "First"

/-- The copy succeeds, and adds what the second branch selects. -/
theorem copied : (Sample.returned? ((copyFragment parts first "First" : UnitM schema Unit) known
    ⟨.fresh schema, .empty 0⟩)).any (fun r => (r.1.2.entities.find? meeting).any
      (fun e => e.fields.keys.map (·.key) = ["x", "y"])) = true := by
  decide +kernel

/-- The fragment is copied to the operation. -/
theorem parts_grafted : ∃ w' run', schema.Built ∧ Yields schema document parts.unit ∧
    schema.Composite "First" ∧
    (copyFragment parts first "First" : UnitM schema Unit) known ⟨.fresh schema, .empty 0⟩ =
      .ok ((), w') run' ∧
    Workpiece.Grafted schema parts first "First" known w' ∧
    (w'.entities.find? meeting).any (fun e => e.fields.keys.map (·.key) = ["x", "y"]) = true := by
  obtain ⟨⟨⟨_, w'⟩, run'⟩, hcopy, hfields⟩ := (Option.any_eq_true ..).1 copied
  have hcopy := Sample.returned?_eq_some hcopy
  have hcomposite : schema.Composite "First" := by decide +kernel
  exact ⟨w', run', built, parts_yields, hcomposite, hcopy,
    (parts_yields.copyFragment_exact built hcomposite hcopy).1, hfields⟩

end Branches

end EntityGraph
