import EntityGraph.Proofs.Request.Cycles
import EntityGraph.Proofs.Request.Depths
import EntityGraph.Proofs.Unit.Tree

/-!
# Every request ends

While a request is answered, five functions call one another (`Recursion`): a name is resolved, its
definition compiled, selections are entered or only checked, and fragments are copied. `unfold` is
one call of each of them, which leaves the calls that it makes in turn to its argument, and
`within stuck fuel` nests calls at most `fuel` deep. A call that has no fuel left gets its answer
from `stuck`, and so does one that would break what the recursion relies on: that the fragments
under construction are defined, and that a copy goes on at a longer location of the fragment's
storage. With `Registry.fuel`, which is computed from the definitions alone, nothing ever depends
on `stuck` (`Run.Live.requests_end`).

Three measures make up the bound. Resolving a name that is neither compiled nor under construction
puts one more definition under construction. Entering and checking selections goes to lower ones. A
copy goes to longer locations, and no location is longer than all definitions together can make it.
Two pieces of work that do the same on runs with a property are compared by `RunM.Coincide`.
-/

namespace EntityGraph

section
variable {schema : Schema} {α β : Type}

/-! ## Calls with fuel -/

/-- The functions that call one another while a request is answered. -/
structure Recursion (schema : Schema) where
  resolve : Name → RunM schema Fragment
  compile : FragmentDefinition → RunM schema (Compiled FragmentDefinition)
  visit : Location → Name → List Selection → UnitM schema Unit
  validate : Name → List Selection → RunM schema Unit
  copy : Fragment → (target source : Location) → Name → UnitM schema Unit

/-- Every fragment under construction is defined. -/
def Registry.StackDefined (registry : Registry) : Prop :=
  ∀ name ∈ registry.inProgress, name ∈ registry.definitions.keys

instance (registry : Registry) : Decidable registry.StackDefined :=
  inferInstanceAs
    (Decidable (∀ name ∈ registry.inProgress.toList, name ∈ registry.definitions.keys))

namespace Recursion

/-- Enters one normal selection. -/
def visitSelection (next : Recursion schema) (location : Location) :
    NormalSelection → UnitM schema Unit
  | .field aliasName name place selections condition =>
    visitField next.visit location aliasName name place selections condition
  | .spread name _ condition => do
    let fragment ← UnitM.ofRun (next.resolve name)
    UnitM.addReferenced fragment
    let conditions ← UnitM.ask (LookupM.intersect condition fragment.definition.condition)
    conditions.forM (next.copy fragment location fragment.rootLocation)
  | .unreachable _ selections condition => UnitM.ofRun (next.validate condition selections)

/-- Goes on with a copy if the way through the storage got longer. -/
def copyFurther (stuck next : Recursion schema) (fragment : Fragment) (last : Location)
    (target source : Location) (condition : Name) : UnitM schema Unit :=
  if last.path.length < source.path.length then next.copy fragment target source condition
  else stuck.copy fragment target source condition

/-- One call of each function; `next` answers the calls that it makes in turn, and `stuck` those
that must not happen. -/
def unfold (stuck next : Recursion schema) : Recursion schema where
  resolve name := do
    if (← get).registry.StackDefined then
      RunM.reuseOr name do
        match (← get).registry.definitions.find? name with
        | some d => RunM.keep name (← RunM.underConstruction name (next.compile d))
        | none => throw (.unknownFragment name)
    else
      stuck.resolve name
  compile := compileFragmentBy next.visit
  visit location condition selections := do
    let _ ← UnitM.entityAt location
    let normal ← UnitM.ask (Selection.normalizeAll condition selections)
    normal.forM (next.visitSelection location)
  validate condition selections := do
    let normal ← RunM.ask (Selection.normalizeAll condition selections)
    normal.forM (validateSelection next.resolve next.validate)
  copy fragment target source condition := do
    match fragment.entities.find? source with
    | none => stuck.copy fragment target source condition
    | some entity =>
      let known ← UnitM.entityAt target
      UnitM.putEntity target { known with
        mergedFragments :=
          (known.mergedFragments.insert fragment.name).insertAll entity.mergedFragments.toList }
      entity.fields.values.forM
        (copyField (copyFurther stuck next fragment source) target condition)

/-- Calls that are nested at most `fuel` deep. -/
def within (stuck : Recursion schema) : (fuel : Nat) → Recursion schema
  | 0 => stuck
  | fuel + 1 => unfold stuck (within stuck fuel)

end Recursion

/-- Fuel for every call on the registry: each definition may be compiled inside another one, which
takes its height and two calls more, and the last copy goes along the longest location. -/
def Registry.fuel (registry : Registry) : Nat :=
  registry.definitions.size * (highest registry.definitions + 2) +
    registry.definitions.size * highest registry.definitions + 1

/-! ## Work that coincides -/

/-- From every run with `I` the two pieces of work end in the same way. If they succeed, the run has
`I` still, and what they return satisfies `post`. -/
def RunM.Coincide (I : Run schema → Prop) (work work' : RunM schema α) (post : α → Prop) : Prop :=
  ∀ run, I run → work run = work' run ∧ ∀ a run', work' run = .ok a run' → I run' ∧ post a

/-- The same of work on a unit. -/
def UnitM.Coincide (I : Run schema → Prop) (work work' : UnitM schema α) (post : α → Prop) :
    Prop :=
  ∀ w, RunM.Coincide I (work w) (work' w) fun p => post p.1

/-- Answers to calls in work that makes none. -/
def noAnswer : Name → RunM schema Fragment := fun _ => throw .poisoned

section
variable {I : Run schema → Prop}

/-- Calls without an answer are questions only. -/
theorem Calls.quiet (hq : Run.Quiet I) {called : List (Name × Fragment)} {run run' : Run schema}
    (h : Calls noAnswer called run run') (hI : I run) : I run' := by
  induction h with
  | done => exact hI
  | asked hlog _ ih => exact ih (hq _ _ hI hlog)
  | call hc => cases hc

namespace RunM.Coincide

variable {work work' : RunM schema α} {next next' : α → RunM schema β} {mid : α → Prop}

/-- Work that asks questions only coincides with itself. -/
theorem of_walks (hq : Run.Quiet I) {post : α → Prop}
    (h : RunM.Walks noAnswer (fun _ => False) work fun a _ => post a) :
    Coincide I work work post := by
  intro run hI
  refine ⟨rfl, fun a run' hw => ?_⟩
  obtain ⟨called, hcalls, hpost⟩ := h.of_ok hw
  exact ⟨hcalls.quiet hq hI, hpost⟩

/-- A value that is returned. -/
theorem pure {a : α} {post : α → Prop} (h : post a) :
    Coincide I (Pure.pure a : RunM schema α) (Pure.pure a) post :=
  fun _ hI => ⟨rfl, fun _ _ hw => by cases hw; exact ⟨hI, h⟩⟩

/-- Less may be said of what is returned. -/
theorem mono {post post' : α → Prop} (h : Coincide I work work' post)
    (himp : ∀ a, post a → post' a) : Coincide I work work' post' :=
  fun run hI => ⟨(h run hI).1, fun a run' hw => ((h run hI).2 a run' hw).imp_right (himp a)⟩

/-- A sequence ends in the same way if its second part does after the first. -/
theorem bind_eq (h : Coincide I work work' mid) {run : Run schema} (hI : I run)
    (h' : ∀ a run', I run' → mid a → next a run' = next' a run') :
    (work >>= next) run = (work' >>= next') run := by
  obtain ⟨heq, hpost⟩ := h run hI
  cases hw : work' run with
  | ok a run' =>
    obtain ⟨hI', hmid⟩ := hpost a run' hw
    rw [bind_of_ok (heq.trans hw), bind_of_ok hw]
    exact h' a run' hI' hmid
  | error e run' => rw [bind_of_error (heq.trans hw), bind_of_error hw]

/-- A sequence of two pieces of work. -/
theorem bind {post : β → Prop} (h : Coincide I work work' mid)
    (h' : ∀ a, mid a → Coincide I (next a) (next' a) post) :
    Coincide I (work >>= next) (work' >>= next') post := by
  intro run hI
  refine ⟨h.bind_eq hI fun a run' hI' hmid => (h' a hmid run' hI').1, fun b run' hb => ?_⟩
  obtain ⟨a, run₁, hw, hn⟩ := ok_of_bind hb
  obtain ⟨hI₁, hmid⟩ := (h run hI).2 a run₁ hw
  exact (h' a hmid run₁ hI₁).2 b run' hn

/-- A loop. -/
theorem forM {f f' : α → RunM schema Unit} :
    ∀ {l : List α}, (∀ a ∈ l, Coincide I (f a) (f' a) fun _ => True) →
      Coincide I (l.forM f) (l.forM f') fun _ => True
  | [], _ => .pure trivial
  | a :: _, h => .bind (h a (.head _)) fun _ _ => forM fun b hb => h b (List.mem_cons_of_mem _ hb)

end RunM.Coincide

namespace UnitM.Coincide

variable {work work' : UnitM schema α} {next next' : α → UnitM schema β} {mid : α → Prop}

/-- Work that asks questions only coincides with itself. -/
theorem of_walks (hq : Run.Quiet I) {post : α → Prop}
    (h : UnitM.Walks noAnswer (fun _ => False) work fun a _ => post a) :
    Coincide I work work post :=
  fun w => .of_walks hq ((h w).mono fun _ _ hp => hp.1)

/-- A sequence of two pieces of work. -/
theorem bind {post : β → Prop} (h : Coincide I work work' mid)
    (h' : ∀ a, mid a → Coincide I (next a) (next' a) post) :
    Coincide I (work >>= next) (work' >>= next') post :=
  fun w => .bind (h w) fun p hp => h' p.1 hp p.2

/-- Work of the run leaves the unit alone. -/
theorem ofRun {work work' : RunM schema α} {post : α → Prop}
    (h : RunM.Coincide I work work' post) :
    Coincide I (UnitM.ofRun work) (UnitM.ofRun work') post :=
  fun _ => h.bind fun _ ha => .pure ha

/-- The unit is changed. -/
theorem modify (f : Workpiece → Workpiece) :
    Coincide I (modify f : UnitM schema PUnit) (modify f) fun _ => True :=
  fun _ => .pure trivial

/-- A loop. -/
theorem forM {f f' : α → UnitM schema Unit} :
    ∀ {l : List α}, (∀ a ∈ l, Coincide I (f a) (f' a) fun _ => True) →
      Coincide I (l.forM f) (l.forM f') fun _ => True
  | [], _ => fun _ => .pure trivial
  | a :: _, h => .bind (h a (.head _)) fun _ _ => forM fun b hb => h b (List.mem_cons_of_mem _ hb)

end UnitM.Coincide

/-! ## Copies -/

namespace Recursion

variable {stuck : Recursion schema} {fuel height bound : Nat}

/-- A copy gets along with fuel for the locations that are longer than the one it starts from. -/
theorem copy_eq {fragment : Fragment} (hF : fragment.Shallow schema bound) {depth : Nat}
    {target source : Location} {condition : Name} (hr : fragment.Ready depth source)
    (hfuel : bound < fuel + source.path.length) :
    (within stuck fuel).copy fragment target source condition =
      copyWithin fragment depth target source condition := by
  induction depth generalizing fuel target source condition with
  | zero => exact absurd rfl (hr.ne_zero hF.formed)
  | succ depth ih =>
    -- there is an entity at the source, so its location is within the bound and fuel is left
    have hlength := hF.length source hr.mem
    obtain ⟨fuel, rfl⟩ : ∃ k, fuel = k + 1 := ⟨fuel - 1, by omega⟩
    obtain ⟨entity, he⟩ := Dict.mem_keys_iff.1 hr.mem
    have hloop : entity.fields.values.forM
        (copyField (copyFurther stuck (within stuck fuel) fragment source) target condition) =
        entity.fields.values.forM (copyField (copyWithin fragment depth) target condition) := by
      refine forM_congr fun f hf => copyField_congr fun l hl target condition => ?_
      obtain ⟨key, hkey⟩ := Dict.mem_values_iff.1 hf
      obtain ⟨hready, hchild, -⟩ :=
        hr.child hF.formed (Storage.field?_eq_some_iff.2 ⟨entity, he, hkey⟩) hl
      have hlonger : l.path.length = source.path.length + 1 := by
        rw [hchild, Location.length_path_append]
      rw [copyFurther, if_pos (by omega)]
      exact ih hready (by omega)
    simp only [within, unfold, copyWithin, he, hloop]

/-! ## Walks -/

section
variable {resolve : Name → RunM schema Fragment} {least : Nat} (hq : Run.Quiet I)
  (hr : ∀ fuel, least ≤ fuel → ∀ name, RunM.Coincide I ((within stuck fuel).resolve name)
    (resolve name) (Fragment.Shallow schema bound))
  (hleast : bound < least)
include hq hr hleast

/-- Selections are checked with fuel for their height, beyond that for their spreads. -/
theorem validate_coincide {condition : Name} {selections : List Selection}
    (hheight : Selection.heightAll selections ≤ height) (hfuel : height + least ≤ fuel) :
    RunM.Coincide I ((within stuck fuel).validate condition selections)
      (validateWithin resolve height condition selections) fun _ => True := by
  induction height generalizing fuel condition selections with
  | zero =>
    obtain ⟨fuel, rfl⟩ : ∃ k, fuel = k + 1 := ⟨fuel - 1, by omega⟩
    cases Selection.eq_nil_of_heightAll (Nat.le_zero.1 hheight)
    exact RunM.Coincide.pure trivial
  | succ height ih =>
    obtain ⟨fuel, rfl⟩ : ∃ k, fuel = k + 1 := ⟨fuel - 1, by omega⟩
    refine (RunM.Coincide.of_walks hq (.ask (Selection.normalizeAll_steady ..))).bind
      fun normal hn => .forM fun s hs => ?_
    have hlower : Selection.heightAll s.selections ≤ height := by
      have := (Selection.normalizeAll_parts selections hn s hs).lower
      omega
    cases s with
    | field aliasName name place inner c =>
      refine (RunM.Coincide.of_walks hq fieldType_walks).bind fun declared _ => ?_
      refine (RunM.Coincide.of_walks hq (.ask (LookupM.type_steady _))).bind fun type _ => ?_
      split
      · exact ih hlower (by omega)
      · exact (RunM.Coincide.of_walks hq checkLeaf_walks).mono fun _ _ => trivial
    | spread name place c =>
      exact (hr _ (by omega) name).bind fun _ _ => .of_walks hq (.pure trivial)
    | unreachable place inner own => exact ih hlower (by omega)

/-- A spread is entered: the fragment is short enough for the fuel. -/
theorem visitSpread_coincide {location : Location} {name condition : Name} {place : SourceLocation}
    (hfuel : least ≤ fuel) :
    UnitM.Coincide I ((within stuck fuel).visitSelection location (.spread name place condition))
      (visitSpread resolve location name condition) fun _ => True := by
  refine (UnitM.Coincide.ofRun (hr fuel hfuel name)).bind fun fragment hF => ?_
  refine (UnitM.Coincide.modify _).bind fun _ _ => ?_
  refine (UnitM.Coincide.of_walks hq (.ask (LookupM.intersect_steady ..))).bind fun cs _ => ?_
  refine .forM fun c _ => ?_
  rw [copy_eq hF hF.formed.ready (by omega)]
  exact .of_walks hq copyWithin_walks

/-- Selections are entered with fuel for their height, beyond that for their spreads. -/
theorem visit_coincide {location : Location} {condition : Name} {selections : List Selection}
    (hheight : Selection.heightAll selections ≤ height) (hfuel : height + least ≤ fuel) :
    UnitM.Coincide I ((within stuck fuel).visit location condition selections)
      (visitWithin resolve height location condition selections) fun _ => True := by
  induction height generalizing fuel location condition selections with
  | zero =>
    obtain ⟨fuel, rfl⟩ : ∃ k, fuel = k + 1 := ⟨fuel - 1, by omega⟩
    cases Selection.eq_nil_of_heightAll (Nat.le_zero.1 hheight)
    exact (UnitM.Coincide.of_walks hq entityAt_walks).bind fun _ _ _ => RunM.Coincide.pure trivial
  | succ height ih =>
    obtain ⟨fuel, rfl⟩ : ∃ k, fuel = k + 1 := ⟨fuel - 1, by omega⟩
    refine (UnitM.Coincide.of_walks hq entityAt_walks).bind fun _ _ => ?_
    refine (UnitM.Coincide.of_walks hq (.ask (Selection.normalizeAll_steady ..))).bind
      fun normal hn => .forM fun s hs => ?_
    have hlower : Selection.heightAll s.selections ≤ height := by
      have := (Selection.normalizeAll_parts selections hn s hs).lower
      omega
    cases s with
    | field aliasName name place inner c =>
      refine (UnitM.Coincide.of_walks hq (.ofRun fieldType_walks)).bind fun declared _ => ?_
      refine (UnitM.Coincide.of_walks hq (.ask (LookupM.type_steady _))).bind fun type _ => ?_
      split
      · exact (ih hlower (by omega)).bind fun _ _ => .of_walks hq mergeAt_walks
      · exact (UnitM.Coincide.of_walks hq (.ofRun checkLeaf_walks)).bind
          fun _ _ => .of_walks hq mergeAt_walks
    | spread name place c => exact visitSpread_coincide hq hr hleast (by omega)
    | unreachable place inner own =>
      change Selection.heightAll inner ≤ height at hlower
      exact .ofRun (validate_coincide hq hr hleast (Nat.le_refl _) (by omega))

/-- The walk over the selections of a definition. -/
theorem walk_coincide {root : Location} {condition : Name} {selections : List Selection}
    (hfuel : Selection.heightAll selections + least ≤ fuel) :
    RunM.Coincide I (((within stuck fuel).visit root condition selections).run .empty)
      ((EntityGraph.visit resolve root condition selections).run .empty) fun _ => True :=
  visit_coincide hq hr hleast (Nat.le_refl _) hfuel .empty

/-- A fragment definition is compiled with fuel for its height. -/
theorem compile_eq {d : FragmentDefinition} {run : Run schema} (hI : I run)
    (hfuel : Selection.heightAll d.selections + least < fuel) :
    (within stuck fuel).compile d run = compileFragment resolve d run := by
  obtain ⟨fuel, rfl⟩ : ∃ k, fuel = k + 1 := ⟨fuel - 1, by omega⟩
  rw [compileFragment]
  refine (RunM.Coincide.of_walks hq (.report fun _ => rfl)).bind_eq hI fun _ run₁ hI₁ _ => ?_
  refine (RunM.Coincide.of_walks hq (.ask (LookupM.type_steady _))).bind_eq hI₁
    fun type run₂ hI₂ _ => ?_
  split
  · exact (walk_coincide hq hr hleast (Nat.le_of_lt_succ hfuel)).bind_eq hI₂ fun _ _ _ _ => rfl
  · rfl

/-- An operation definition is compiled with fuel for its height. -/
theorem compileOperation_coincide {d : OperationDefinition} {run : Run schema} (hI : I run)
    (hfuel : Selection.heightAll d.selections + least ≤ fuel) :
    compileOperationBy (within stuck fuel).visit d run = compileOperation resolve d run := by
  rw [compileOperation]
  refine (RunM.Coincide.of_walks hq (.report fun _ => rfl)).bind_eq hI fun _ run₁ hI₁ _ => ?_
  cases schema.root? d.kind with
  | none => rfl
  | some type =>
    exact (walk_coincide hq hr hleast hfuel).bind_eq hI₁ fun _ _ _ _ => rfl

end

end Recursion

end

/-! ## Calls for a name -/

/-- Only what is neither compiled nor under construction is compiled. -/
theorem RunM.reuseOr_congr {name : Name} {compile compile' : RunM schema Fragment}
    {run : Run schema} (h : run.registry.built.find? name = none →
      name ∉ run.registry.inProgress → compile run = compile' run) :
    reuseOr name compile run = reuseOr name compile' run := by
  cases hb : run.registry.built.find? name with
  | some f =>
    rw [reuseOr, reuseOr, get_bind, get_bind]
    simp only [hb]
  | none =>
    rw [reuseOr_of_not_built hb, reuseOr_of_not_built hb]
    split
    · rfl
    · next hp => exact h hb hp

/-- What is done while a fragment is under construction counts only from there. -/
theorem RunM.underConstruction_congr {name : Name} {work work' : RunM schema α} {run : Run schema}
    (h : work (run.enter name) = work' (run.enter name)) :
    underConstruction name work run = underConstruction name work' run := by
  unfold Run.enter at h
  unfold underConstruction
  simp only [h]

section
variable {definitions : Dict Name FragmentDefinition} {stack : OrderedSet Name} {name : Name}
  {run run' : Run schema} {stuck : Recursion schema} {depth fuel : Nat}

/-- A call that succeeds returns a fragment with locations of bounded length. -/
theorem Run.Mirrors.resolved (hs : schema.Coherent) (h : run.Mirrors definitions stack)
    (hstack : ∀ n ∈ stack, n ∈ definitions.keys) {f : Fragment}
    (hf : RunM.resolveWithin depth name run = .ok f run') :
    run'.Mirrors definitions stack ∧
      f.Shallow schema (definitions.size * highest definitions) := by
  have hagrees : RunM.Agrees False (Run.Mirrors definitions stack)
      (RunM.resolveWithin depth name : RunM schema Fragment)
      (replay (compileAnew schema definitions definitions.size stack name)) Fragment.Alike :=
    resolveWithin_agrees False.elim hstack (Nat.le_add_right _ _)
  have h' : run'.Mirrors definitions stack := hagrees.of_ends h (.inl ⟨f, hf⟩)
  have hlead : run.Leads name (RunM.resolveWithin depth name run) := resolveWithin_kept h.kept
  rw [hf] at hlead
  exact ⟨h', h'.shallow hs hlead.2.2⟩

/-- The fragments under construction are defined. -/
theorem Run.Mirrors.stackDefined (h : run.Mirrors definitions stack)
    (hstack : ∀ n ∈ stack, n ∈ definitions.keys) : run.registry.StackDefined := by
  intro n hn
  rw [h.inProgress_eq] at hn
  rw [h.definitions_eq]
  exact hstack n hn

namespace Recursion

/-- A call with fuel, while every fragment under construction is defined. -/
theorem resolve_within (h : run.registry.StackDefined) :
    (within stuck (fuel + 1)).resolve name run =
      RunM.reuseOr name (do
        match (← get).registry.definitions.find? name with
        | some d => RunM.keep name (← RunM.underConstruction name ((within stuck fuel).compile d))
        | none => throw (.unknownFragment name)) run := by
  show (if run.registry.StackDefined then (_ : RunM schema Fragment) else _) run = _
  rw [if_pos h]

/-- A call for a name gets along with fuel for the definitions that are not under construction. -/
theorem resolve_coincide (hs : schema.Coherent) (hstack : ∀ n ∈ stack, n ∈ definitions.keys)
    (hdepth : definitions.size ≤ depth + stack.size)
    (hfuel : depth * (highest definitions + 2) + definitions.size * highest definitions < fuel) :
    RunM.Coincide (Run.Mirrors definitions stack) ((within stuck fuel).resolve name)
      (RunM.resolveWithin depth name)
      (Fragment.Shallow schema (definitions.size * highest definitions)) := by
  induction depth generalizing stack fuel name with
  | zero =>
    intro run hI
    refine ⟨?_, fun f run' hf => hI.resolved hs hstack hf⟩
    obtain ⟨fuel, rfl⟩ : ∃ k, fuel = k + 1 := ⟨fuel - 1, by omega⟩
    rw [resolve_within (hI.stackDefined hstack), RunM.resolveWithin]
    refine RunM.reuseOr_congr fun _ hp => ?_
    -- every definition is under construction, so a name that is not has none
    have hnone : run.registry.definitions.find? name = none := by
      rw [hI.inProgress_eq] at hp
      rw [hI.definitions_eq, Dict.find?_eq_none_iff]
      intro hkey
      have := OrderedSet.size_lt_of_not_mem hstack hkey hp
      omega
    rw [RunM.get_bind]
    simp only [hnone]
  | succ depth ih =>
    intro run hI
    refine ⟨?_, fun f run' hf => hI.resolved hs hstack hf⟩
    obtain ⟨fuel, rfl⟩ : ∃ k, fuel = k + 1 := ⟨fuel - 1, by omega⟩
    rw [resolve_within (hI.stackDefined hstack), RunM.resolveWithin]
    refine RunM.reuseOr_congr fun hb hp => ?_
    rw [RunM.get_bind, RunM.get_bind]
    cases hd : run.registry.definitions.find? name with
    | none => rfl
    | some d =>
      rw [hI.inProgress_eq] at hp
      rw [hI.definitions_eq] at hd
      have hkey : name ∈ definitions.keys := Dict.mem_keys_iff.2 ⟨d, hd⟩
      have hdepth' : definitions.size ≤ depth + (stack.insert name).size := by
        rw [OrderedSet.size_insert hp]
        omega
      -- one definition fewer is left: its height pays for the walk, two calls for getting there
      have hheight := heightAll_le_highest hd
      rw [Nat.succ_mul] at hfuel
      have hcompile : (within stuck fuel).compile d (run.enter name) =
          compileFragment (RunM.resolveWithin depth) d (run.enter name) := by
        have hr : ∀ fuel, depth * (highest definitions + 2) +
            definitions.size * highest definitions + 1 ≤ fuel → ∀ m,
            RunM.Coincide (Run.Mirrors definitions (stack.insert name))
              ((within stuck fuel).resolve m) (RunM.resolveWithin depth m)
              (Fragment.Shallow schema (definitions.size * highest definitions)) :=
          fun fuel hle m => ih (OrderedSet.insert_defined hstack hkey) hdepth' hle
        exact compile_eq Run.Mirrors.quiet hr (Nat.lt_succ_of_le (Nat.le_add_left ..)) (hI.enter hb)
          (by omega)
      show EStateM.bind (RunM.underConstruction name ((within stuck fuel).compile d))
        (RunM.keep name) run = EStateM.bind _ (RunM.keep name) run
      rw [EStateM.bind, EStateM.bind, RunM.underConstruction_congr hcompile]

/-- A call without a bound. -/
theorem resolve_coincide_of_fuel (hs : schema.Coherent)
    (hstack : ∀ n ∈ stack, n ∈ definitions.keys)
    (hfuel : definitions.size * (highest definitions + 2) +
      definitions.size * highest definitions < fuel) :
    RunM.Coincide (Run.Mirrors definitions stack) ((within stuck fuel).resolve name)
      (RunM.resolve name) (Fragment.Shallow schema (definitions.size * highest definitions)) := by
  intro run hI
  rw [RunM.resolve_eq, hI.definitions_eq]
  exact resolve_coincide hs hstack (Nat.le_add_right _ _) hfuel run hI

end Recursion

end

/-! ## Requests -/

/-- At any moment of any history, also while fragments are under construction, the names of these
are distinct and defined, so there are no more of them than definitions. Whatever the fields of a
compiled fragment lead to is in its storage, at a longer location. And with fuel that is computed
from the definitions, a call for a name and a request for an operation end as they do without:
nothing runs out of fuel, so nothing depends on what would be answered then. -/
theorem Run.Live.requests_end {run : Run schema} (hs : schema.Built) (hlive : run.Live) :
    (run.registry.inProgress.toList.Nodup ∧ run.registry.StackDefined ∧
      run.registry.inProgress.size ≤ run.registry.definitions.size) ∧
    (∀ name f, run.registry.built.find? name = some f →
      f.rootLocation ∈ f.entities.keys ∧
      ∀ l e key field child, f.entities.find? l = some e → e.fields.find? key = some field →
        field.child = some child →
        child ∈ f.entities.keys ∧ l.path.length < child.path.length) ∧
    ∀ (stuck : Recursion schema) (fuel : Nat), run.registry.fuel ≤ fuel →
      (∀ name, (Recursion.within stuck fuel).resolve name run = RunM.resolve name run) ∧
      ∀ d : OperationDefinition,
        compileOperationBy (Recursion.within stuck (Selection.heightAll d.selections + fuel)).visit
          d run = RunM.operation d run := by
  have hcoherent := hs.coherent
  obtain ⟨hmirrors, hstack⟩ := hlive.mirrors_defined
  refine ⟨⟨run.registry.inProgress.nodup, hstack, ?_⟩, fun name f hf => ?_,
    fun stuck fuel hfuel => ?_⟩
  · have hle := (List.subperm_of_subset run.registry.inProgress.nodup hstack).length_le
    rwa [Dict.length_keys] at hle
  · have hunit := (hmirrors.shallow hcoherent hf).formed
    refine ⟨hunit.mem, fun l e key field child he hfield hchild => ?_⟩
    obtain ⟨hc, e', he'⟩ := hunit.tree.child l e key field child he hfield hchild
    refine ⟨Dict.mem_keys_iff.2 ⟨e', he'⟩, ?_⟩
    rw [hc, Location.length_path_append]
    exact Nat.lt_succ_self _
  · have hr : ∀ fuel', run.registry.fuel ≤ fuel' → ∀ name,
        RunM.Coincide (Run.Mirrors run.registry.definitions run.registry.inProgress)
          ((Recursion.within stuck fuel').resolve name) (RunM.resolve name)
          (Fragment.Shallow schema
            (run.registry.definitions.size * highest run.registry.definitions)) :=
      fun fuel' hle name => Recursion.resolve_coincide_of_fuel hcoherent hstack hle
    refine ⟨fun name => (hr fuel hfuel name run hmirrors).1, fun d => ?_⟩
    refine Recursion.compileOperation_coincide Run.Mirrors.quiet hr ?_ hmirrors
      (Nat.add_le_add_left hfuel _)
    exact Nat.lt_succ_of_le (Nat.le_add_left ..)

end

namespace Sample

/-- Calls that fail. -/
def giveUp : Recursion schema where
  resolve _ := throw .poisoned
  compile _ := throw .poisoned
  visit _ _ _ := throw .poisoned
  validate _ _ := throw .poisoned
  copy _ _ _ _ := throw .poisoned

/-- Two fragments that spread each other need no more fuel than their definitions give, and neither
does an operation that spreads a fragment. -/
theorem looping_ends : schema.Built ∧ looping.Live ∧ looping.registry.fuel = 9 ∧
    cycle? ((Recursion.within giveUp 9).resolve "There" looping) =
      some ["There", "Back", "There"] ∧
    run.Live ∧ run.registry.fuel = 7 ∧
    compileOperationBy (Recursion.within giveUp (3 + 7)).visit operation run =
      RunM.operation operation run := by
  obtain ⟨-, -, hlooping⟩ := looping_live.requests_end built
  obtain ⟨-, -, hrun⟩ := run_live.requests_end built
  have hfuel : looping.registry.fuel = 9 := rfl
  have hfuel' : run.registry.fuel = 7 := rfl
  refine ⟨built, looping_live, hfuel, ?_, run_live, hfuel', ?_⟩
  · rw [(hlooping giveUp 9 (Nat.le_of_eq hfuel)).1 "There"]
    exact cycle?_looping
  · exact (hrun giveUp 7 (Nat.le_of_eq hfuel')).2 operation

end Sample

end EntityGraph
