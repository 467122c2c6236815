import EntityGraph.Proofs.Document.Valid
import EntityGraph.Proofs.Request.Requests

/-!
# Which fragments a unit references

The fragments that a unit references are those that it spreads and those that their definitions
spread, each in the place where it is come across first. `Expands` lists them with all repetitions:
the spreads in the order of the walk, and after each of them what the definition of its name expands
to. A walk never enters a definition again; it adds the list that the compiled fragment has noted,
without its repetitions, and without what was noted before. Both leave the same list, because a
repetition that is left out early would be left out later
(`OrderedSet.insertAll_toList_insertAll`). Main statement: `Yields.referenced_expansion`.
-/

namespace EntityGraph

open LookupM (Gives)

/-- Elements that are already in one set do not matter when its elements are added to another. -/
theorem OrderedSet.insertAll_toList_insertAll {α : Type} [DecidableEq α] (s t : OrderedSet α)
    (l : List α) :
    s.insertAll (t.insertAll l).toList = (s.insertAll t.toList).insertAll l := by
  induction l generalizing t with
  | nil => rfl
  | cons a l ih =>
    have hstep : s.insertAll (t.insert a).toList = (s.insertAll t.toList).insert a := by
      rw [toList_insert]
      by_cases ha : a ∈ t
      · rw [if_pos ha, insert, dif_pos (mem_insertAll.2 (.inr ha))]
      · rw [if_neg ha, insertAll, List.foldl_append]
        rfl
    show s.insertAll ((t.insert a).insertAll l).toList = ((s.insertAll _).insert a).insertAll l
    rw [ih, hstep]

/-- Repetitions do not matter when elements are added to a set. -/
theorem OrderedSet.insertAll_ofList {α : Type} [DecidableEq α] (s : OrderedSet α) (l : List α) :
    s.insertAll (ofList l).toList = s.insertAll l :=
  insertAll_toList_insertAll s empty l

/-! ## Expansions -/

section
variable (schema : Schema) (document : Document)

/-- The normal selections spread the fragments `names`, in the order of the walk and with all
repetitions: selections below a field come before those after it, and after each fragment comes what
its definition spreads. Selections that can never apply spread nothing. -/
inductive Expands : List NormalSelection → List Name → Prop
  | nil : Expands [] []
  | leaf {aliasName : Option Name} {name condition : Name} {place : SourceLocation}
      {selections : List Selection} {declared : DeclaredType} {type : NamedType}
      {rest : List NormalSelection} {names : List Name} :
      schema.fieldType? condition name = some declared →
      schema.types.find? declared.innermostName = some type → type.isComposite = false →
      Expands rest names →
      Expands (.field aliasName name place selections condition :: rest) names
  | node {aliasName : Option Name} {name condition : Name} {place : SourceLocation}
      {selections : List Selection} {declared : DeclaredType} {type : NamedType}
      {normal rest : List NormalSelection} {inner names : List Name} :
      schema.fieldType? condition name = some declared →
      schema.types.find? declared.innermostName = some type → type.isComposite = true →
      Gives (Selection.normalizeAll type.name selections : LookupM schema LookupError _) normal →
      Expands normal inner → Expands rest names →
      Expands (.field aliasName name place selections condition :: rest) (inner ++ names)
  | spread {name condition : Name} {place : SourceLocation} {d : FragmentDefinition}
      {normal rest : List NormalSelection} {inner names : List Name} :
      document.Defines name d →
      Gives (Selection.normalizeAll d.condition d.selections : LookupM schema LookupError _)
        normal →
      Expands normal inner → Expands rest names →
      Expands (.spread name place condition :: rest) (name :: inner ++ names)
  | unreachable {condition : Name} {place : SourceLocation} {selections : List Selection}
      {rest : List NormalSelection} {names : List Name} :
      Expands rest names → Expands (.unreachable place selections condition :: rest) names

/-- Selections that are made under a condition expand to `names`. -/
def ExpandsTo (condition : Name) (selections : List Selection) (names : List Name) : Prop :=
  ∃ normal, Gives (Selection.normalizeAll condition selections : LookupM schema LookupError _)
    normal ∧ Expands schema document normal names

end

section
variable {schema : Schema} {document : Document}

/-- One selection expands before the others. -/
theorem Expands.cons {s : NormalSelection} {rest : List NormalSelection} {first names : List Name}
    (h : Expands schema document [s] first) (hr : Expands schema document rest names) :
    Expands schema document (s :: rest) (first ++ names) := by
  cases h with
  | leaf hd ht hc hnil =>
    cases hnil
    exact .leaf hd ht hc hr
  | node hd ht hc hg hinner hnil =>
    cases hnil
    rw [List.append_nil]
    exact .node hd ht hc hg hinner hr
  | spread hd hg hinner hnil =>
    cases hnil
    rw [List.append_nil]
    exact .spread hd hg hinner hr
  | unreachable hnil =>
    cases hnil
    exact .unreachable hr

/-- What a spread fragment expands to is part of the expansion. -/
theorem Expands.closed {normal : List NormalSelection} {names : List Name}
    (h : Expands schema document normal names) {name : Name} (hn : name ∈ names) :
    ∃ d inner, document.Defines name d ∧
      ExpandsTo schema document d.condition d.selections inner ∧ inner ⊆ names := by
  induction h with
  | nil => cases hn
  | leaf _ _ _ _ ih | unreachable _ ih => exact ih hn
  | node _ _ _ _ _ _ ihinner ih =>
    rcases List.mem_append.1 hn with hn | hn
    · obtain ⟨d, inner, hd, hinner, hsub⟩ := ihinner hn
      exact ⟨d, inner, hd, hinner, List.subset_append_of_subset_left _ hsub⟩
    · obtain ⟨d, inner, hd, hinner, hsub⟩ := ih hn
      exact ⟨d, inner, hd, hinner, List.subset_append_of_subset_right _ hsub⟩
  | @spread _ _ _ d normal rest inner names hd hg hinner _ ihinner ih =>
    rw [List.cons_append] at hn ⊢
    rcases List.mem_cons.1 hn with rfl | hn
    · exact ⟨d, inner, hd, ⟨normal, hg, hinner⟩,
        List.subset_cons_of_subset _ (List.subset_append_left _ _)⟩
    rcases List.mem_append.1 hn with hn | hn
    · obtain ⟨d', inner', hd', hinner', hsub⟩ := ihinner hn
      exact ⟨d', inner', hd', hinner',
        List.subset_cons_of_subset _ (List.subset_append_of_subset_left _ hsub)⟩
    · obtain ⟨d', inner', hd', hinner', hsub⟩ := ih hn
      exact ⟨d', inner', hd', hinner',
        List.subset_cons_of_subset _ (List.subset_append_of_subset_right _ hsub)⟩

section
variable (hone : ∀ name d d', document.Defines name d → document.Defines name d' → d = d')
include hone

/-- Where no name is defined twice, normal selections have one expansion. -/
theorem Expands.unique {normal : List NormalSelection} {names names' : List Name}
    (h : Expands schema document normal names) (h' : Expands schema document normal names') :
    names = names' := by
  induction h generalizing names' with
  | nil =>
    cases h'
    rfl
  | leaf hd ht hc _ ih =>
    cases h' with
    | leaf _ _ _ h' => exact ih h'
    | node hd' ht' hc' =>
      cases hd.symm.trans hd'
      cases ht.symm.trans ht'
      cases hc.symm.trans hc'
  | node hd ht hc hg _ _ ihinner ih =>
    cases h' with
    | leaf hd' ht' hc' =>
      cases hd.symm.trans hd'
      cases ht.symm.trans ht'
      cases hc.symm.trans hc'
    | node hd' ht' _ hg' hinner' h' =>
      cases hd.symm.trans hd'
      cases ht.symm.trans ht'
      cases (Selection.normalizeAll_steady _ _).unique hg hg'
      rw [ihinner hinner', ih h']
  | spread hd hg _ _ ihinner ih =>
    cases h' with
    | spread hd' hg' hinner' h' =>
      cases hone _ _ _ hd hd'
      cases (Selection.normalizeAll_steady _ _).unique hg hg'
      rw [ihinner hinner', ih h']
  | unreachable _ ih =>
    cases h' with
    | unreachable h' => exact ih h'

/-- The same for selections that are made under a condition. -/
theorem ExpandsTo.unique {condition : Name} {selections : List Selection}
    {names names' : List Name} (h : ExpandsTo schema document condition selections names)
    (h' : ExpandsTo schema document condition selections names') : names = names' := by
  obtain ⟨normal, hg, hx⟩ := h
  obtain ⟨normal', hg', hx'⟩ := h'
  cases (Selection.normalizeAll_steady _ _).unique hg hg'
  exact hx.unique hone hx'

end

/-! ## What a walk notes -/

section
variable {fragment : Fragment} {target source location : Location} {condition : Name}
  {w w' : Workpiece}

/-- Merging a field notes nothing. -/
theorem Merges.noted {f : EntityField} (h : Merges schema location f w w') :
    w'.noted = w.noted := by
  obtain ⟨m, -, rfl⟩ := h
  exact w.noted_put ..

/-- Copying a fragment notes nothing. -/
theorem Copies.noted {depth : Nat} (h : Copies schema fragment depth target source condition w w') :
    w'.noted = w.noted := by
  induction depth generalizing target source condition w w' with
  | zero => rw [show w' = w from h]
  | succ depth ih =>
    unfold Copies at h
    split at h
    · rw [h]
    · next entity _ =>
      refine .trans (Chain.lift (T := fun w w' => w'.noted = w.noted) (fun _ => rfl)
        (fun h₁ h₂ => h₂.trans h₁) (fun f _ w w' hcopy => ?_) h) (w.noted_put ..)
      cases hcopy with
      | skip => rfl
      | leaf _ _ _ hm => exact hm.noted
      | node _ _ _ hnested hm => exact hm.noted.trans (ih hnested)

end

/-- A unit references the first occurrences of what its selections expand to. -/
def CompiledUnit.NotesExpansion (schema : Schema) (document : Document) (u : CompiledUnit) : Prop :=
  ∃ names, ExpandsTo schema document u.rootType u.selections names ∧
    u.referenced.keys = (OrderedSet.ofList names).toList

/-- The walk from `w` to `w'` over normal selections notes what they expand to. -/
def Notes (schema : Schema) (document : Document) (normal : List NormalSelection)
    (w w' : Workpiece) : Prop :=
  ∃ names, Expands schema document normal names ∧ w'.noted = w.noted.insertAll names

/-- Work on one normal selection after the other notes what they expand to. -/
theorem Chain.notes {R : NormalSelection → Workpiece → Workpiece → Prop}
    {normal : List NormalSelection} {w w' : Workpiece}
    (h : Chain R normal w w')
    (hR : ∀ s ∈ normal, ∀ w w', R s w w' → Notes schema document [s] w w') :
    Notes schema document normal w w' := by
  induction normal generalizing w with
  | nil =>
    cases h
    exact ⟨[], .nil, rfl⟩
  | cons s rest ih =>
    obtain ⟨w₁, hs, hrest⟩ := h
    obtain ⟨first, hfirst, hw₁⟩ := hR s (.head _) w w₁ hs
    obtain ⟨names, hnames, hw'⟩ := ih hrest fun s hs => hR s (List.mem_cons_of_mem _ hs)
    refine ⟨first ++ names, hfirst.cons hnames, ?_⟩
    rw [hw', hw₁, OrderedSet.insertAll, OrderedSet.insertAll, OrderedSet.insertAll,
      List.foldl_append]

/-- Entering a normal selection notes what it expands to, as soon as the selections below it and the
fragments that answer spreads have noted what theirs expand to. -/
theorem VisitsSelection.notes
    {nested : Location → Name → List Selection → Workpiece → Workpiece → Prop}
    {location : Location} {s : NormalSelection} {w w' : Workpiece}
    (hn : ∀ {location condition w w'}, nested location condition s.selections w w' →
      ∃ names, ExpandsTo schema document condition s.selections names ∧
        w'.noted = w.noted.insertAll names)
    (h : VisitsSelection schema (Spreadable document (CompiledUnit.NotesExpansion schema document))
      nested location s w w') : Notes schema document [s] w w' := by
  cases h with
  | leaf hd ht hc hm => exact ⟨[], .leaf hd ht hc .nil, hm.noted⟩
  | node hd ht hc hnested hm =>
    obtain ⟨names, ⟨normal, hg, hx⟩, hw⟩ := hn hnested
    refine ⟨names ++ [], .node hd ht hc hg hx .nil, ?_⟩
    rw [hm.noted, hw, List.append_nil]
  | @spread name _ _ fragment _ _ _ hG _ hcopies =>
    obtain ⟨hdefines, names, ⟨normal, hg, hx⟩, hkeys⟩ := hG
    have hd : document.Defines name fragment.definition := (hdefines _).2 rfl
    have hcopied : w'.noted = (w.refer fragment).noted :=
      Chain.lift (T := fun w w' => w'.noted = w.noted) (fun _ => rfl)
        (fun h₁ h₂ => h₂.trans h₁) (fun _ _ _ _ hcopy => hcopy.noted) hcopies
    refine ⟨name :: names ++ [], .spread hd hg hx .nil, ?_⟩
    -- the fragment has left out its repetitions, which are left out again here
    calc w'.noted = (w.noted.insert fragment.name).insertAll fragment.referenced.keys := by
          rw [hcopied, Workpiece.noted_refer]
          rfl
      _ = (w.noted.insert name).insertAll (OrderedSet.ofList names).toList := by
          rw [show fragment.referenced.keys = _ from hkeys, ← hd.2]
          rfl
      _ = w.noted.insertAll (name :: names ++ []) := by
          rw [OrderedSet.insertAll_ofList, List.append_nil]
          rfl
  | unreachable => exact ⟨[], .unreachable .nil, rfl⟩

/-- Entering selections notes what they expand to, as soon as the fragments that answer spreads have
noted what theirs expand to. -/
theorem Visits.notes {height : Nat} {location : Location} {condition : Name}
    {selections : List Selection} {w w' : Workpiece}
    (hheight : Selection.heightAll selections ≤ height)
    (h : Visits schema (Spreadable document (CompiledUnit.NotesExpansion schema document)) height
      location condition selections w w') :
    ∃ names, ExpandsTo schema document condition selections names ∧
      w'.noted = w.noted.insertAll names := by
  induction height generalizing location condition selections w w' with
  | zero =>
    cases Selection.eq_nil_of_heightAll (Nat.le_zero.1 hheight)
    cases h
    exact ⟨[], ⟨[], ⟨.fresh schema, _, rfl⟩, .nil⟩, w.noted_put ..⟩
  | succ height ih =>
    obtain ⟨normal, hg, hchain⟩ := h
    have hnotes : Notes schema document normal (w.put location (w.entity location)) w' := by
      refine hchain.notes fun s hs w w' hvisit => hvisit.notes fun hnested => ih ?_ hnested
      have hlower := (Selection.normalizeAll_parts selections hg s hs).lower
      omega
    obtain ⟨names, hx, hw'⟩ := hnotes
    exact ⟨names, ⟨normal, hg, hx⟩, hw'⟩

/-! ## Units -/

/-- Every unit references what its selections expand to. -/
theorem Yields.notesExpansion (hs : schema.Coherent) {u : CompiledUnit}
    (h : Yields schema document u) : u.NotesExpansion schema document := by
  refine h.induction hs fun u hwalked => ?_
  obtain ⟨names, hx, hnoted⟩ := hwalked.visits.notes (Nat.le_refl _)
  exact ⟨names, hx, congrArg OrderedSet.toList hnoted⟩

/-- A document that units come from defines no fragment twice. -/
theorem Yields.defines_unique (hs : schema.Coherent) {u : CompiledUnit}
    (h : Yields schema document u) {name : Name} {d d' : FragmentDefinition}
    (hd : document.Defines name d) (hd' : document.Defines name d') : d = d' := by
  have hrun : ∃ run : Run schema, run.Reachable schema document := by
    cases h with
    | operation hb | fragment hb => exact ⟨_, hb.run⟩
    | compiled hr | resolved hr => exact ⟨_, hr⟩
  obtain ⟨run, hr⟩ := hrun
  have hsound : run.registry.Sound document fun _ => True := hr.sound (fun _ _ => trivial) hs
  have hfind := (hsound.definitions name d).2 hd
  rw [(hsound.definitions name d').2 hd'] at hfind
  exact (Option.some.inj hfind).symm

/-- The fragments that a unit references are, in order, the first occurrences in the one expansion
of its selections. So none of them is listed twice, and what the definition of one of them expands
to is referenced as well, and therefore everything that the compiled fragment references. -/
theorem Yields.referenced_expansion (hs : schema.Built) {u : CompiledUnit}
    (h : Yields schema document u) :
    ∃ names, ExpandsTo schema document u.rootType u.selections names ∧
      (∀ names', ExpandsTo schema document u.rootType u.selections names' → names' = names) ∧
      u.referenced.keys = names.eraseDups ∧ u.referenced.keys.Nodup ∧
      ∀ name ∈ u.referenced.keys,
        (∃ d inner, document.Defines name d ∧
          ExpandsTo schema document d.condition d.selections inner ∧
          inner ⊆ u.referenced.keys) ∧
        ∀ f : Fragment, document.Defines name f.definition → Yields schema document f.unit →
          f.referenced.keys ⊆ u.referenced.keys := by
  have hone : ∀ name d d', document.Defines name d → document.Defines name d' → d = d' :=
    fun _ _ _ => h.defines_unique hs.coherent
  obtain ⟨names, hx, hkeys⟩ := h.notesExpansion hs.coherent
  rw [OrderedSet.toList_ofList_eq] at hkeys
  have hmem : ∀ {name}, name ∈ u.referenced.keys ↔ name ∈ names := by
    rw [hkeys]
    exact List.mem_eraseDups
  refine ⟨names, hx, fun names' hx' => hx'.unique hone hx, hkeys, u.referenced.nodup_keys,
    fun name hn => ?_⟩
  obtain ⟨normal, -, hnormal⟩ := hx
  obtain ⟨d, inner, hd, hinner, hsub⟩ := hnormal.closed (hmem.1 hn)
  refine ⟨⟨d, inner, hd, hinner, fun n h => hmem.2 (hsub h)⟩, fun f hf hyields n hn => ?_⟩
  obtain ⟨inner', hinner', hkeys'⟩ := hyields.notesExpansion hs.coherent
  cases hone _ _ _ hd hf
  cases hinner.unique hone hinner'
  rw [show f.referenced.keys = _ from hkeys', OrderedSet.mem_toList, OrderedSet.mem_ofList] at hn
  exact hmem.2 (hsub hn)

end

namespace Repeated

open Sample (schema place leaf)

/-- An operation that spreads fragments directly and through others, one of them where its type
condition excludes the one around it, and one more in an inline fragment that can never apply. -/
def operation : OperationDefinition where
  location := place
  kind := .query
  name := none
  selections := [.spread "Outer" place, .inline (some "Leaf") place [.spread "Unused" place],
    .spread "Last" place, .spread "Disjoint" place]

/-- The operation with its fragments. -/
def document : Document where
  file := none
  fragments := [
    ⟨place, "Outer", [.spread "Last" place, .field none "node" place [.spread "Inner" place]],
      "Query"⟩,
    ⟨place, "Last", [.field none "node" place [.spread "Inner" place]], "Query"⟩,
    ⟨place, "Inner", leaf, "Node"⟩,
    ⟨place, "Disjoint", leaf, "Leaf"⟩,
    ⟨place, "Unused", leaf, "Leaf"⟩]
  operations := [operation]

/-- The operation can be compiled. -/
theorem compile?_isSome : (Sample.compile? schema document operation).isSome = true := by
  decide +kernel

/-- The compiled operation. -/
@[irreducible]
def compiled : Operation := (Sample.compile? schema document operation).get compile?_isSome

/-- The operation is compiled to this. -/
theorem compile?_eq : Sample.compile? schema document operation = some compiled := by
  unfold compiled
  exact (Option.some_get compile?_isSome).symm

/-- The fragments that the compiled operation references. -/
theorem keys_compiled : compiled.referenced.keys = ["Outer", "Last", "Inner", "Disjoint"] := by
  decide +kernel

/-- Every fragment that is spread where it counts is referenced once. -/
theorem referenced_once : schema.Built ∧ ∃ type,
    Yields schema document (operation.unit type compiled) ∧
    compiled.referenced.keys = ["Outer", "Last", "Inner", "Disjoint"] ∧
    ∃ names, ExpandsTo schema document type operation.selections names ∧
      compiled.referenced.keys = names.eraseDups := by
  obtain ⟨b, b', hb, h⟩ := Sample.exists_of_compile? compile?_eq
  obtain ⟨type, -, hyields⟩ := (Builder.Reachable.new hb).yields_operation h
  obtain ⟨names, hx, -, hkeys, -⟩ := hyields.referenced_expansion Sample.built
  exact ⟨Sample.built, type.name, hyields, keys_compiled, names, hx, hkeys⟩

end Repeated

end EntityGraph
