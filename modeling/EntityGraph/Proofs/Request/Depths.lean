import EntityGraph.Proofs.Request.Memoised
import EntityGraph.Proofs.Walk.Filled

/-!
# How long the locations of a fragment are

A walk makes locations that are at most as many steps long as its selections are high, and where it
copies a fragment they grow by the locations of that fragment (`Visits.deepens`). A fragment is
copied only after it was compiled, so the heights of different definitions add up along a nesting of
spreads, and no location is longer than all definitions together can make it
(`Run.Mirrors.shallow`). This bound comes from the definitions alone, unlike the size of a storage.
-/

namespace EntityGraph

variable {schema : Schema} {bound bound' : Nat}

/-! ## Units -/

/-- What is new in the unit has at most `bound` steps. -/
def Workpiece.Deepens (bound : Nat) (w w' : Workpiece) : Prop :=
  ∀ l ∈ w'.entities.keys, l ∈ w.entities.keys ∨ l.path.length ≤ bound

/-- The fragment is well-formed, and none of its locations has more than `bound` steps. -/
structure Fragment.Shallow (schema : Schema) (bound : Nat) (f : Fragment) : Prop where
  formed : f.unit.Formed schema
  length : ∀ l ∈ f.entities.keys, l.path.length ≤ bound

namespace Workpiece.Deepens

variable {w w₁ w' : Workpiece}

theorem refl (w : Workpiece) : w.Deepens bound w := fun _ h => .inl h

theorem trans (h : w.Deepens bound w₁) (h' : w₁.Deepens bound w') : w.Deepens bound w' := by
  intro l hl
  rcases h' l hl with hl | hl
  · exact h l hl
  · exact .inr hl

/-- Replacing an entity makes no location but its own. -/
theorem put {l : Location} {e : Entity} (h : l.path.length ≤ bound) :
    w.Deepens bound (w.put l e) := by
  intro l' hl'
  rw [Workpiece.put, Dict.keys_insert] at hl'
  split at hl'
  · exact .inl hl'
  · rcases List.mem_append.1 hl' with hl' | hl'
    · exact .inl hl'
    · exact .inr (List.mem_singleton.1 hl' ▸ h)

end Workpiece.Deepens

/-- Merging a field makes no location but that of its entity. -/
theorem Merges.deepens {l : Location} {f : EntityField} {w w' : Workpiece}
    (h : Merges schema l f w w') (hl : l.path.length ≤ bound) : w.Deepens bound w' := by
  obtain ⟨m, -, rfl⟩ := h
  exact .put hl

/-- The bound may be larger. -/
theorem Fragment.Shallow.mono {f : Fragment} (h : f.Shallow schema bound) (hle : bound ≤ bound') :
    f.Shallow schema bound' :=
  ⟨h.formed, fun l hl => Nat.le_trans (h.length l hl) hle⟩

/-- Only the content of a fragment matters. -/
theorem Fragment.Shallow.of_alike {f g : Fragment} (h : f.Alike g) (hg : g.Shallow schema bound) :
    f.Shallow schema bound := by
  obtain ⟨⟨d, entities, referenced, rootField, root⟩, id⟩ := f
  obtain ⟨⟨d', entities', referenced', rootField', root'⟩, id'⟩ := g
  injection h with hd he hreferenced _ hroot
  subst hd he hroot
  obtain ⟨hunit, hlength⟩ := hg
  -- a storage that notes fragments does not see which instances they are
  have hnoted : ∀ l e, entities.find? l = some e →
      ∀ name ∈ e.mergedFragments, name ∈ referenced.keys := by
    rw [hreferenced]
    exact hunit.formed.noted
  have hformed := hunit.formed
  exact ⟨⟨hunit.root, hunit.mem, ⟨hformed.entities, hformed.handles, hformed.rooted, hnoted⟩,
    hunit.attached⟩, hlength⟩

/-! ## Walks -/

/-- A fragment is copied: below the target, locations are as long as below the source. -/
theorem Copies.deepens {fragment : Fragment} {depth : Nat} {target source : Location}
    {condition : Name} {w w' : Workpiece} (hF : fragment.Shallow schema bound')
    (hr : fragment.Ready depth source)
    (hb : target.path.length + bound' ≤ bound + source.path.length)
    (h : Copies schema fragment depth target source condition w w') : w.Deepens bound w' := by
  induction depth generalizing target source condition w w' with
  | zero => exact absurd rfl (hr.ne_zero hF.formed)
  | succ depth ih =>
    have htarget : target.path.length ≤ bound := by
      have := hF.length source hr.mem
      omega
    obtain ⟨e, he⟩ := Dict.mem_keys_iff.1 hr.mem
    unfold Copies at h
    rw [he] at h
    refine .trans (.put htarget) (Chain.lift .refl .trans (fun f hf w w' hcopy => ?_) h)
    cases hcopy with
    | skip => exact .refl _
    | leaf _ _ _ hm => exact hm.deepens htarget
    | @node _ _ _ l _ _ hchild hnested hm =>
      obtain ⟨key, hkey⟩ := Dict.mem_values_iff.1 hf
      obtain ⟨hready, hl, -⟩ :=
        hr.child hF.formed (Storage.field?_eq_some_iff.2 ⟨e, he, hkey⟩) hchild
      have hlength : l.path.length = source.path.length + 1 := by
        rw [hl, Location.length_path_append]
      refine .trans (ih hready ?_ hnested) (hm.deepens htarget)
      rw [Location.length_path_append]
      omega

/-- Selections are entered: their height and the length of the fragments' locations add up. -/
theorem Visits.deepens {G : Name → Fragment → Prop}
    (hG : ∀ name fragment, G name fragment → fragment.Shallow schema bound') {height : Nat}
    {location : Location} {condition : Name} {selections : List Selection} {w w' : Workpiece}
    (hb : location.path.length + height + bound' ≤ bound)
    (h : Visits schema G height location condition selections w w') : w.Deepens bound w' := by
  induction height generalizing location condition selections w w' with
  | zero =>
    cases h
    exact .put (by omega)
  | succ height ih =>
    have hlocation : location.path.length ≤ bound := by omega
    obtain ⟨normal, -, hchain⟩ := h
    refine .trans (.put hlocation) (Chain.lift .refl .trans (fun s _ w w' hvisit => ?_) hchain)
    cases hvisit with
    | leaf _ _ _ hm => exact hm.deepens hlocation
    | node _ _ _ hnested hm =>
      refine .trans (ih ?_ hnested) (hm.deepens hlocation)
      rw [Location.length_path_append]
      omega
    | @spread name _ _ fragment _ _ _ hg _ hcopies =>
      have hF := hG name fragment hg
      have hrefer : w.Deepens bound (w.refer fragment) := fun _ h => .inl h
      have hroot : fragment.rootLocation.path.length = 0 := by
        rw [show fragment.rootLocation = _ from hF.formed.root]
        rfl
      refine hrefer.trans (Chain.lift .refl .trans (fun c _ w w' hcopy => ?_) hcopies)
      exact hcopy.deepens hF hF.formed.ready (by omega)
    | unreachable => exact .refl _

/-! ## Compiling -/

/-- A fragment definition is compiled: its height is added to the length of the locations of the
fragments that it spreads. -/
theorem compileFragment_shallow (hs : schema.Coherent) {resolve : Name → RunM schema Fragment}
    (hr : ∀ name, RunM.Does (fun _ => True) (resolve name) (Fragment.Shallow schema bound))
    {d : FragmentDefinition} :
    RunM.Does (fun _ => True) (compileFragment resolve d) fun c =>
      ∀ id, Fragment.Shallow schema (Selection.heightAll d.selections + bound)
        { toCompiled := c, id } := by
  refine RunM.Does.report.bind fun _ _ => RunM.Does.ask.bind fun type ht => ?_
  have ht := LookupM.type_gives ht
  split
  · next hc =>
    refine RunM.Does.bind (visitWithin_does hr) fun p hp => RunM.Does.report.bind fun _ _ => ?_
    refine .pure fun id => ⟨?_, fun l hl => ?_⟩
    · exact Visits.formed hs (fun _ _ hg => hg.formed) rfl ⟨type, ht, hc⟩ hp
    · have hdeep := hp.deepens (fun _ _ hg => hg) (Nat.le_refl _) l hl
      rcases hdeep with hl | hl
      · cases hl
      · simpa [Location.ofFragment] using hl
  · exact .throw

/-- The height of the highest definition. -/
def highest (definitions : Dict Name FragmentDefinition) : Nat :=
  Selection.heightAll (definitions.values.flatMap (·.selections))

section
variable {definitions : Dict Name FragmentDefinition} {stack : OrderedSet Name} {name : Name}

/-- No definition is higher than the highest. -/
theorem heightAll_le_highest {d : FragmentDefinition} (h : definitions.find? name = some d) :
    Selection.heightAll d.selections ≤ highest definitions := by
  have hmem : d ∈ definitions.values := Dict.mem_values_iff.2 ⟨name, h⟩
  refine Selection.heightAll_le_iff.2 fun s hs => ?_
  exact Selection.heightAll_le_iff.1 (Nat.le_refl _) s (List.mem_flatMap.2 ⟨d, hmem, hs⟩)

/-- A fragment that is compiled within some depth: each nested compilation adds at most the height
of the highest definition. -/
theorem compileAnew_shallow (hs : schema.Coherent) {depth : Nat} {c : Compiled FragmentDefinition}
    (h : compileAnew schema definitions depth stack name = .ok c) {f : Fragment}
    (hf : f.content = c.content) : f.Shallow schema (depth * highest definitions) := by
  induction depth generalizing stack name c f with
  | zero =>
    obtain ⟨_, _, _, hdepth, -⟩ := compileAnew_ok h
    omega
  | succ depth ih =>
    obtain ⟨_, d, run', hdepth, -, hd, hc, -⟩ := compileAnew_ok h
    cases hdepth
    have hr : ∀ m, RunM.Does (fun _ => True)
        (replay (compileAnew schema definitions depth (stack.insert name) m) : RunM schema Fragment)
        (Fragment.Shallow schema (depth * highest definitions)) := by
      intro m
      cases hm : compileAnew schema definitions depth (stack.insert name) m with
      | ok c' => exact .pure (ih hm rfl)
      | error e => exact .throw
    have hshallow := (compileFragment_shallow hs hr).of_ok trivial hc ⟨0, 0⟩
    refine .of_alike (g := { toCompiled := c, id := ⟨0, 0⟩ }) hf (hshallow.mono ?_)
    have hheight := heightAll_le_highest hd
    rw [Nat.succ_mul]
    omega

/-- No location of a compiled fragment is longer than all definitions together can make it. -/
theorem Run.Mirrors.shallow (hs : schema.Coherent) {run : Run schema}
    (h : run.Mirrors definitions stack) {f : Fragment}
    (hf : run.registry.built.find? name = some f) :
    f.Shallow schema (definitions.size * highest definitions) := by
  obtain ⟨c, hc, hcontent⟩ := h.built name f hf
  exact compileAnew_shallow hs hc hcontent

end

end EntityGraph
