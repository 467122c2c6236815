import EntityGraph.Proofs.Request.Requests
import EntityGraph.Proofs.Walk.Formed

/-!
# Walks leave well-formed units

Copying a fragment that is well-formed into a unit that is well-formed leaves a well-formed unit,
and so does entering selections whose spreads are answered by such fragments (`Copies.fills`,
`Visits.fills`). The bound on the depth of a copy is never reached: a fragment has more entities
than its longest location has steps (`Fragment.Ready`). By induction on the requests every unit is
well-formed (`Yields.formed`).
-/

namespace EntityGraph

/-- What every compiled unit satisfies. -/
structure CompiledUnit.Formed (schema : Schema) (u : CompiledUnit) : Prop where
  root : u.root = ⟨[], u.source⟩
  mem : u.root ∈ u.entities.keys
  formed : Workpiece.Formed schema u.root ⟨u.entities, u.referenced⟩
  attached : ∀ l ∈ u.entities.keys, l = u.root ∨ u.entities.Attached l

/-- The entity at `source` is there, and nothing below it is more than `depth` levels down. -/
structure Fragment.Ready (fragment : Fragment) (depth : Nat) (source : Location) : Prop where
  mem : source ∈ fragment.entities.keys
  room : fragment.entities.size ≤ source.path.length + depth

/-- The use of the fragment, and of the fragments that it uses, is noted. -/
def Workpiece.Notes (w : Workpiece) (fragment : Fragment) : Prop :=
  ∀ name, name = fragment.name ∨ name ∈ fragment.referenced.keys → name ∈ w.referenced.keys

section
variable {schema : Schema} {fragment : Fragment} {depth : Nat} {root target source : Location}
  {condition : Name} {w w₁ w' : Workpiece}

/-- What is noted stays noted. -/
theorem Workpiece.Notes.mono {base : Location} (h : w.Notes fragment)
    (hg : Grows schema base w w') : w'.Notes fragment :=
  fun name hn => hg.referenced name (h name hn)

/-- A fragment is ready to be copied as a whole. -/
theorem CompiledUnit.Formed.ready (hF : fragment.unit.Formed schema) :
    fragment.Ready fragment.entities.size fragment.rootLocation :=
  ⟨hF.mem, Nat.le_add_left ..⟩

/-- What is ready is not at the end of the bound. -/
theorem Fragment.Ready.ne_zero (h : fragment.Ready depth source)
    (hF : fragment.unit.Formed schema) : depth ≠ 0 := by
  have hlt : source.path.length < fragment.entities.keys.length :=
    hF.formed.rooted.length_path_lt (by rw [hF.root]) h.mem
  have hroom := h.room
  rw [Dict.length_keys] at hlt
  omega

/-- Where a field leads to is ready one level further. -/
theorem Fragment.Ready.child {f : EntityField} {key : FieldKey} {l : Location}
    (h : fragment.Ready (depth + 1) source)
    (hF : fragment.unit.Formed schema)
    (hf : fragment.entities.field? source key = some f) (hl : f.child = some l) :
    fragment.Ready depth l ∧ l = source.append f.key f.type.innermostName ∧
      schema.Composite f.type.innermostName := by
  obtain ⟨e, he, hfind⟩ := Storage.field?_eq_some_iff.1 hf
  have hfits := (hF.formed.entities source e he).fits key f hfind
  obtain ⟨hc, rfl⟩ := Schema.handle?_eq_some_iff.1 (hfits.child ▸ hl)
  refine ⟨⟨hF.formed.handles source key f _ hf hl, ?_⟩, rfl, hc⟩
  have hroom := h.room
  rw [Location.length_path_append]
  omega

/-! ## Copying -/

/-- A field of a fragment fits where it is copied to. -/
theorem EntityField.Fits.narrow (hs : schema.Coherent) {f : EntityField} {cs : OrderedSet Name}
    {child : Option Location} (h : f.Fits schema source)
    (hc : schema.Within condition target.typeName)
    (hcs : LookupM.Gives (narrowConditions f.conditions.toList condition :
      LookupM schema LookupError _) cs)
    (hne : cs.isEmpty = false) (hchild : child = schema.handle? target f.fieldKey) :
    EntityField.Fits schema target { f with child, conditions := cs } := by
  have hn := narrowConditions_gives hs h.composite hcs
  refine ⟨?_, hn.composite, fun c hm => (hn.within c hm).trans hc, hchild⟩
  exact List.exists_mem_of_ne_nil cs.toList (by simpa [OrderedSet.isEmpty] using hne)

/-- A field is copied, where nested entities are copied as they should. -/
theorem CopiesField.fills (hs : schema.Coherent)
    (hF : fragment.unit.Formed schema)
    {nested : (target source : Location) → Name → Workpiece → Workpiece → Prop}
    (ih : ∀ target source w w', fragment.Ready depth source → w.Formed schema root →
      Next root w.entities.keys target → w.Notes fragment → schema.Composite target.typeName →
      target.typeName = source.typeName → nested target source source.typeName w w' →
      Fills schema root target w w')
    {key : FieldKey} {f : EntityField} (hr : fragment.Ready (depth + 1) source)
    (hf : fragment.entities.field? source key = some f) (hw : w.Formed schema root)
    (ht : target ∈ w.entities.keys) (hn : w.Notes fragment)
    (hc : schema.Within condition target.typeName)
    (h : CopiesField schema nested target condition f w w') : Fills schema root target w w' := by
  obtain ⟨e, he, hfind⟩ := Storage.field?_eq_some_iff.1 hf
  have hfits := (hF.formed.entities source e he).fits key f hfind
  cases h with
  | skip => exact ⟨hw, ht, .refl w⟩
  | leaf hcs hne hchild hm =>
    refine .merge hm (hfits.narrow hs hc hcs hne ?_) ht (.inl ⟨rfl, rfl, hw⟩)
    rw [hfits.child, Schema.handle?_eq_none_iff] at hchild
    rw [eq_comm, Schema.handle?_eq_none_iff]
    exact hchild
  | node hcs hne hchild hnested hm =>
    obtain ⟨hready, rfl, hcomp⟩ := hr.child hF hf hchild
    rw [Location.typeName_append] at hnested hm
    refine .merge hm (hfits.narrow hs hc hcs hne ?_) ht (.inr ⟨rfl, ?_⟩)
    · rw [eq_comm, Schema.handle?_eq_some_iff]
      exact ⟨hcomp, rfl⟩
    · refine ih _ _ _ _ hready hw (.inr ⟨target, ht, _, _, rfl⟩) hn ?_ ?_ ?_
      · rw [Location.typeName_append]; exact hcomp
      · rw [Location.typeName_append, Location.typeName_append]
      · rw [Location.typeName_append]; exact hnested

/-- A fragment is copied to a location that is there or can be next. -/
theorem Copies.fills (hs : schema.Coherent)
    (hF : fragment.unit.Formed schema) (hr : fragment.Ready depth source)
    (hw : w.Formed schema root)
    (hl : target ∈ w.entities.keys ∨ Next root w.entities.keys target) (hn : w.Notes fragment)
    (ht : schema.Composite target.typeName) (hc : schema.Within condition target.typeName)
    (h : Copies schema fragment depth target source condition w w') :
    Fills schema root target w w' := by
  induction depth generalizing target source condition w w' with
  | zero => exact absurd rfl (hr.ne_zero hF)
  | succ depth ih =>
    obtain ⟨e, he⟩ := Dict.mem_keys_iff.1 hr.mem
    unfold Copies at h
    rw [he] at h
    -- the fragments merged into the source are noted, so the target may take them over
    have hnames : ∀ name ∈ ((w.entity target).mergedFragments.insert fragment.name).insertAll
        e.mergedFragments.toList, name ∈ w.referenced.keys := by
      intro name hname
      simp only [OrderedSet.mem_insertAll, OrderedSet.mem_insert] at hname
      rcases hname with (hname | rfl) | hname
      · exact hw.noted_entity hname
      · exact hn _ (.inl rfl)
      · exact hn _ (.inr (hF.formed.noted source e he name hname))
    have hstart := Fills.note hw hl ht hnames
    refine h.fills hstart fun f hf w₁ w₂ hcopy hw₁ ht₁ hg => ?_
    obtain ⟨key, hkey⟩ := Dict.mem_values_iff.1 hf
    have hn₁ := (hn.mono hstart.settles.toGrows).mono hg
    refine CopiesField.fills hs hF ?_ hr (Storage.field?_eq_some_iff.2 ⟨e, he, hkey⟩) hw₁ ht₁ hn₁
      hc hcopy
    intro target source w w' hr hw hl hn ht hty h
    exact ih hr hw (.inr hl) hn ht (hty ▸ .refl _) h

/-! ## Visiting -/

variable {G : Name → Fragment → Prop} {location : Location}

/-- A normal selection is entered, where nested selections are entered as they should. -/
theorem VisitsSelection.fills (hs : schema.Coherent)
    (hG : ∀ name fragment, G name fragment → fragment.unit.Formed schema)
    {nested : Location → Name → List Selection → Workpiece → Workpiece → Prop}
    (ih : ∀ location selections w w', w.Formed schema root →
      Next root w.entities.keys location → schema.Composite location.typeName →
      nested location location.typeName selections w w' → Fills schema root location w w')
    {s : NormalSelection} (hi : s.Inside schema location.typeName) (hw : w.Formed schema root)
    (hl : location ∈ w.entities.keys)
    (h : VisitsSelection schema G nested location s w w') : Fills schema root location w w' := by
  cases h with
  | @leaf aliasName name condition place declared type _ _ hd ht hc hm =>
    refine .merge hm (.single hi.1 hi.2 ?_) hl (.inl ⟨rfl, rfl, hw⟩)
    rw [eq_comm, Schema.handle?_eq_none_iff]
    exact Schema.not_composite ht hc
  | @node aliasName name condition place selections declared type _ w₁ _ hd ht hc hv hm =>
    rw [hs.named _ _ ht] at hv hm
    have hcomp : schema.Composite declared.innermostName := ⟨type, ht, hc⟩
    refine .merge hm (.single hi.1 hi.2 ?_) hl (.inr ⟨rfl, ?_⟩)
    · rw [eq_comm, Schema.handle?_eq_some_iff]
      exact ⟨hcomp, rfl⟩
    · refine ih _ selections _ _ hw (.inr ⟨location, hl, _, _, rfl⟩) ?_ ?_
      · rw [Location.typeName_append]; exact hcomp
      · rw [Location.typeName_append]; exact hv
  | @spread name condition place fragment cs _ _ hg hcs hcopies =>
    have hF := hG name fragment hg
    have hm := LookupM.intersect_gives hs hi.1 hcs
    have hcomp : schema.Composite location.typeName := by
      obtain ⟨e, he⟩ := Dict.mem_keys_iff.1 hl
      exact (hw.entities location e he).composite
    have hstart : Fills schema root location w (w.refer fragment) :=
      ⟨hw.refer fragment, hl, .refer fragment, fun _ h => .inl h⟩
    have hnotes : (w.refer fragment).Notes fragment :=
      fun name hname => Workpiece.mem_keys_refer.2 (.inr hname)
    refine hcopies.fills hstart fun c hc w₁ w₂ hcopy hw₁ hl₁ hg => ?_
    exact hcopy.fills hs hF hF.ready hw₁ (.inl hl₁) (hnotes.mono hg) hcomp
      ((hm.left c hc).trans hi.2)
  | unreachable => exact ⟨hw, hl, .refl w⟩

/-- Selections are entered at a location that is there or can be next. -/
theorem Visits.fills (hs : schema.Coherent)
    (hG : ∀ name fragment, G name fragment → fragment.unit.Formed schema)
    {height : Nat} {selections : List Selection} (hw : w.Formed schema root)
    (hl : location ∈ w.entities.keys ∨ Next root w.entities.keys location)
    (hcomp : schema.Composite location.typeName)
    (h : Visits schema G height location location.typeName selections w w') :
    Fills schema root location w w' := by
  induction height generalizing location selections w w' with
  | zero => exact h ▸ .enter hw hl hcomp
  | succ height ih =>
    obtain ⟨normal, hnormal, hchain⟩ := h
    -- only the conditions matter here, and they do not depend on any definitions
    have hn : Normal schema ⟨none, [], []⟩ location.typeName selections normal :=
      Selection.normalizeAll_normal hs selections hcomp hnormal
    refine hchain.fills (.enter hw hl hcomp) fun s hmem w₁ w₂ hvisit hw₁ hl₁ _ => ?_
    refine hvisit.fills hs hG ?_ (hn.inside s hmem) hw₁ hl₁
    exact fun location selections w w' hw hl hcomp h => ih hw (.inr hl) hcomp h

end

/-! ## Units -/

section
variable {schema : Schema} {document : Document} {u : CompiledUnit}

/-- A unit that a walk from its root leaves is well-formed if the fragments that it spreads are. -/
theorem Visits.formed (hs : schema.Coherent) {G : Name → Fragment → Prop} {height : Nat}
    (hG : ∀ name fragment, G name fragment → fragment.unit.Formed schema)
    (hroot : u.root = ⟨[], u.source⟩) (hcomp : schema.Composite u.rootType)
    (h : Visits schema G height u.root u.rootType u.selections .empty ⟨u.entities, u.referenced⟩) :
    u.Formed schema := by
  have htype : u.rootType = u.root.typeName := by rw [hroot]; rfl
  rw [htype] at h hcomp
  have hfill := h.fills hs hG .empty (.inr (.inl ⟨rfl, rfl⟩)) hcomp
  refine ⟨hroot, hfill.mem, hfill.formed, fun l hl => ?_⟩
  rcases hfill.settles.attached l hl with hl | hl
  · cases hl
  · exact hl

/-- A unit is well-formed if the fragments that it spreads are. -/
theorem Walked.formed (hs : schema.Coherent) {P : CompiledUnit → Prop}
    (hP : ∀ u, P u → u.Formed schema) (h : Walked schema document P u) : u.Formed schema :=
  h.visits.formed hs (fun _ _ hg => hP _ hg.2) h.root h.composite

/-- Every unit is well-formed. -/
theorem Yields.formed (hs : schema.Coherent) (h : Yields schema document u) : u.Formed schema :=
  h.induction hs fun _ hw => hw.formed hs fun _ h => h

end

end EntityGraph
