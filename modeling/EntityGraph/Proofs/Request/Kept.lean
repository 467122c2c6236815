import EntityGraph.Proofs.Request.Requests
import EntityGraph.Proofs.Walk.Calls
import Mathlib.Logic.Relation

/-!
# What a registry keeps

A registry is never left half-changed. Whatever happens to a run (`Run.Step`), also while fragments
are under construction, the registry stays in order (`Run.Kept`): each compiled fragment is stored
under its own name, comes from a compilation that succeeded, and finds all that it spreads compiled
before it. A call for a name changes nothing but what is compiled and only adds to that
(`Registry.Extends`), however deep it goes and however it ends; this is `resolveWithin_kept`, by
induction on the depth. So each name is built at most once, and whatever refers to it refers to the
one instance (`Run.Live.resolve_keeps`).
-/

namespace EntityGraph

section
variable {schema : Schema}

/-! ## Histories -/

namespace Run

/-- The run while a fragment counts as under construction. -/
def enter (run : Run schema) (name : Name) : Run schema :=
  { run with registry.inProgress := run.registry.inProgress.insert name }

/-- The run after the construction of a fragment. -/
def leave (run : Run schema) (name : Name) : Run schema :=
  { run with registry.inProgress := run.registry.inProgress.erase name }

/-- What can happen to a run: questions, new definitions, requests, and within a request the start
of a compilation. -/
inductive Step : Run schema → Run schema → Prop
  | asked {run : Run schema} {lookups : Lookups schema} :
      (∀ name, timesBuilt lookups.log name = timesBuilt run.lookups.log name) →
      Step run { run with lookups }
  | registered {run : Run schema} {registry : Registry} {d : FragmentDefinition} :
      Ends (Registry.register d) run.registry registry → Step run { run with registry }
  | entered {run : Run schema} {name : Name} {d : FragmentDefinition} :
      run.registry.definitions.find? name = some d → run.registry.built.find? name = none →
      name ∉ run.registry.inProgress → Step run (run.enter name)
  | resolved {run run' : Run schema} {depth : Nat} {name : Name} :
      Ends (RunM.resolveWithin depth name) run run' → Step run run'
  | operation {run run' : Run schema} {d : OperationDefinition} :
      Ends (RunM.operation d) run run' → Step run run'

/-- One thing after the other. -/
def Steps : Run schema → Run schema → Prop := Relation.ReflTransGen Step

/-- The run goes back to an empty registry. -/
def Live (run : Run schema) : Prop :=
  ∃ (lookups : Lookups schema) (id : Nat), (∀ name, timesBuilt lookups.log name = 0) ∧
    Steps ⟨lookups, .empty id⟩ run

end Run

/-! ## Registries in order -/

namespace Registry

/-- The fragment `name` is defined and spreads `other`, at any depth of its selections. -/
def Spreads (registry : Registry) (name other : Name) : Prop :=
  ∃ d, registry.definitions.find? name = some d ∧ other ∈ Selection.spreadsAll d.selections

/-- The use of a fragment refers to the instance that is stored under its name. -/
def Holds (registry : Registry) (use : Name × FragmentId) : Prop :=
  ∃ f, registry.built.find? use.1 = some f ∧ f.id = use.2

/-- Nothing is taken back. -/
structure Grows (registry registry' : Registry) : Prop where
  id : registry'.id = registry.id
  definitions : ∀ name d, registry.definitions.find? name = some d →
    registry'.definitions.find? name = some d
  built : ∀ name f, registry.built.find? name = some f → registry'.built.find? name = some f
  size : registry.built.size ≤ registry'.built.size

/-- While the fragment `name` was under construction, on a registry that has only grown since, its
compilation succeeded with the result `c`. -/
def Compiles (schema : Schema) (registry : Registry) (name : Name)
    (c : Compiled FragmentDefinition) : Prop :=
  ∃ (depth : Nat) (run run' : Run schema), name ∈ run.registry.inProgress ∧
    compileFragment (RunM.resolveWithin depth) c.definition run = .ok c run' ∧
    run'.registry.Grows registry

/-- The entry of a compiled fragment is in order. What it spreads was compiled before. -/
structure Entry (schema : Schema) (registry : Registry) (name : Name) (f : Fragment) : Prop where
  definition : registry.definitions.find? name = some f.definition
  compiled : registry.Compiles schema name f.toCompiled
  spreads : ∀ m ∈ Selection.spreadsAll f.definition.selections,
    ∃ g, registry.built.find? m = some g ∧ g.id.serial < f.id.serial
  referenced : ∀ use ∈ f.referenced.entries, registry.Holds use
  origin : f.id.registry = registry.id
  serial : f.id.serial < registry.built.size

/-- Nothing is changed but what is compiled, and nothing compiled is taken back. -/
structure Extends (registry registry' : Registry) : Prop where
  id : registry'.id = registry.id
  definitions : registry'.definitions = registry.definitions
  inProgress : registry'.inProgress = registry.inProgress
  built : ∀ name f, registry.built.find? name = some f → registry'.built.find? name = some f
  size : registry.built.size ≤ registry'.built.size

variable {registry registry₁ registry' : Registry}

theorem Extends.refl : Extends registry registry := ⟨rfl, rfl, rfl, fun _ _ h => h, Nat.le_refl _⟩

theorem Extends.trans (h : Extends registry registry₁) (h' : Extends registry₁ registry') :
    Extends registry registry' :=
  ⟨h'.id.trans h.id, h'.definitions.trans h.definitions, h'.inProgress.trans h.inProgress,
    fun name f hf => h'.built name f (h.built name f hf), Nat.le_trans h.size h'.size⟩

theorem Extends.grows (h : Extends registry registry') : Grows registry registry' :=
  ⟨h.id, fun name d hd => by rwa [h.definitions], h.built, h.size⟩

theorem Grows.refl : Grows registry registry := Extends.refl.grows

theorem Grows.trans (h : Grows registry registry₁) (h' : Grows registry₁ registry') :
    Grows registry registry' :=
  ⟨h'.id.trans h.id, fun name d hd => h'.definitions name d (h.definitions name d hd),
    fun name f hf => h'.built name f (h.built name f hf), Nat.le_trans h.size h'.size⟩

/-- A use of a fragment keeps its meaning. -/
theorem Holds.mono {use : Name × FragmentId} (h : registry.Holds use)
    (hg : Grows registry registry') : registry'.Holds use :=
  h.imp fun _ hf => ⟨hg.built _ _ hf.1, hf.2⟩

/-- An entry stays in order. -/
theorem Entry.mono {name : Name} {f : Fragment} (h : Entry schema registry name f)
    (hg : Grows registry registry') : Entry schema registry' name f where
  definition := hg.definitions _ _ h.definition
  compiled := by
    obtain ⟨depth, run, run', hp, hc, hg'⟩ := h.compiled
    exact ⟨depth, run, run', hp, hc, hg'.trans hg⟩
  spreads m hm := (h.spreads m hm).imp fun _ hg' => ⟨hg.built _ _ hg'.1, hg'.2⟩
  referenced use hu := (h.referenced use hu).mono hg
  origin := h.origin.trans hg.id.symm
  serial := Nat.lt_of_lt_of_le h.serial hg.size

end Registry

namespace Run

/-- The registry is in order, and the log tells what is compiled. -/
structure Kept (run : Run schema) : Prop where
  named : ∀ name d, run.registry.definitions.find? name = some d → d.name = name
  entry : ∀ name f, run.registry.built.find? name = some f →
    run.registry.Entry schema name f
  distinct : ∀ n m f g, run.registry.built.find? n = some f → run.registry.built.find? m = some g →
    f.id = g.id → n = m
  idle : ∀ name ∈ run.registry.inProgress, run.registry.built.find? name = none
  logged : ∀ name,
    timesBuilt run.lookups.log name = if name ∈ run.registry.built.keys then 1 else 0

variable {run run₁ run' : Run schema} {name : Name}

namespace Kept

/-- Before anything is defined. -/
theorem empty {lookups : Lookups schema} {id : Nat}
    (h : ∀ name, timesBuilt lookups.log name = 0) : Kept ⟨lookups, .empty id⟩ where
  named _ _ h := nomatch h
  entry _ _ h := nomatch h
  distinct _ _ _ _ h := nomatch h
  idle _ h := nomatch h
  logged := h

/-- Questions do not matter. -/
theorem asked {lookups : Lookups schema} (h : run.Kept)
    (hq : ∀ name, timesBuilt lookups.log name = timesBuilt run.lookups.log name) :
    Kept { run with lookups } where
  named := h.named
  entry := h.entry
  distinct := h.distinct
  idle := h.idle
  logged name := (hq name).trans (h.logged name)

/-- A fragment that is not compiled may be under construction. -/
theorem enter (h : run.Kept) (hb : run.registry.built.find? name = none) :
    (run.enter name).Kept where
  named := h.named
  entry n f hf := (h.entry n f hf).mono ⟨rfl, fun _ _ h => h, fun _ _ h => h, Nat.le_refl _⟩
  distinct := h.distinct
  idle n hn := (OrderedSet.mem_insert.1 hn).elim (h.idle n) fun e => e ▸ hb
  logged := h.logged

/-- Fewer fragments may be under construction. -/
theorem leave (h : run.Kept) : (run.leave name).Kept where
  named := h.named
  entry n f hf := (h.entry n f hf).mono ⟨rfl, fun _ _ h => h, fun _ _ h => h, Nat.le_refl _⟩
  distinct := h.distinct
  idle n hn := h.idle n (OrderedSet.mem_erase.1 hn).1
  logged := h.logged

/-- A new definition is added. -/
theorem register {registry : Registry} {d : FragmentDefinition} (h : run.Kept)
    (he : Ends (Registry.register d) run.registry registry) :
    Kept { run with registry } ∧ run.registry.Grows registry := by
  rcases he with ⟨_, he⟩ | ⟨e, he⟩ <;> unfold Registry.register at he <;> split at he
  · cases he
  · next hnew =>
    cases he
    have hg : run.registry.Grows
        { run.registry with definitions := run.registry.definitions.insert d.name d } := by
      refine ⟨rfl, fun n d' hd => ?_, fun _ _ h => h, Nat.le_refl _⟩
      have hne : n ≠ d.name := fun e => by simp [← e, hd] at hnew
      rw [Dict.find?_insert, if_neg hne, hd]
    refine ⟨⟨fun n d' hd => ?_, fun n f hf => (h.entry n f hf).mono hg, h.distinct, h.idle,
      h.logged⟩, hg⟩
    rw [Dict.find?_insert] at hd
    split at hd
    · next hn => cases hd; exact hn.symm
    · exact h.named n d' hd
  · cases he
    exact ⟨h, .refl⟩
  · cases he

end Kept

/-- The run after a compilation, with the record of it and the compiled fragment. -/
def kept (run : Run schema) (name : Name) (c : Compiled FragmentDefinition) : Run schema where
  lookups := { run.lookups with log := .builtFragment name c.entities.size :: run.lookups.log }
  registry := { run.registry with
    inProgress := run.registry.inProgress.erase name
    built := run.registry.built.insert name
      { toCompiled := c, id := ⟨run.registry.id, run.registry.built.size⟩ } }

/-- A compiled fragment is kept: what it spreads was compiled before. -/
theorem Kept.keep {c : Compiled FragmentDefinition} (h : run.Kept)
    (hname : run.registry.built.find? name = none)
    (hd : run.registry.definitions.find? name = some c.definition)
    (hc : run.registry.Compiles schema name c)
    (hs : ∀ m ∈ Selection.spreadsAll c.definition.selections,
      ∃ g, run.registry.built.find? m = some g)
    (hr : ∀ use ∈ c.referenced.entries, run.registry.Holds use) :
    (run.kept name c).Kept ∧
      (run.leave name).registry.Extends (run.kept name c).registry := by
  have hnew : name ∉ run.registry.built.keys := Dict.find?_eq_none_iff.1 hname
  have hsize := run.registry.built.size_insert
    ({ toCompiled := c, id := ⟨run.registry.id, run.registry.built.size⟩ } : Fragment) hnew
  have hx : (run.leave name).registry.Extends (run.kept name c).registry := by
    refine ⟨rfl, rfl, rfl, fun n f hf => ?_, ?_⟩
    · have hne : n ≠ name := fun e => by
        rw [e] at hf
        exact nomatch hname.symm.trans hf
      exact (Dict.find?_insert ..).trans ((if_neg hne).trans hf)
    · exact Nat.le_of_lt (Nat.lt_of_lt_of_eq (Nat.lt_succ_self _) hsize.symm)
  have hg : run.registry.Grows (run.kept name c).registry :=
    ⟨rfl, fun _ _ h => h, hx.built, hx.size⟩
  -- an entry is the new one, with the largest serial so far, or an old one
  have hcases : ∀ n f, (run.kept name c).registry.built.find? n = some f →
      n = name ∧ f = { toCompiled := c, id := ⟨run.registry.id, run.registry.built.size⟩ } ∨
        n ≠ name ∧ run.registry.built.find? n = some f := by
    intro n f hf
    have hf := (Dict.find?_insert ..).symm.trans hf
    split at hf
    · next hn => exact .inl ⟨hn, (Option.some.inj hf).symm⟩
    · next hn => exact .inr ⟨hn, hf⟩
  refine
    ⟨⟨h.named, fun n f hf => ?_, fun n m f g hf hf' hid => ?_, fun n hn => ?_, fun n => ?_⟩, hx⟩
  · rcases hcases n f hf with ⟨rfl, rfl⟩ | ⟨-, hf⟩
    · obtain ⟨depth, r, r', hp, hc, hg'⟩ := hc
      refine ⟨hd, ⟨depth, r, r', hp, hc, hg'.trans hg⟩, fun m hm => ?_,
        fun use hu => (hr use hu).mono hg, rfl, ?_⟩
      · obtain ⟨g, hg⟩ := hs m hm
        exact ⟨g, hx.built m g hg, (h.entry m g hg).serial⟩
      · exact Nat.lt_of_lt_of_eq (Nat.lt_succ_self _) hsize.symm
    · exact (h.entry n f hf).mono hg
  · rcases hcases n f hf with ⟨hn, hnew⟩ | ⟨-, hold⟩ <;>
      rcases hcases m g hf' with ⟨hm, hnew'⟩ | ⟨-, hold'⟩
    · rw [hn, hm]
    · have hlt := (h.entry m g hold').serial
      simp [← hid, hnew] at hlt
    · have hlt := (h.entry n f hold).serial
      simp [hid, hnew'] at hlt
    · exact h.distinct n m f g hold hold' hid
  · obtain ⟨hn, hne⟩ := OrderedSet.mem_erase.1 hn
    exact (Dict.find?_insert ..).trans ((if_neg hne).trans (h.idle n hn))
  · have hlog := h.logged n
    show timesBuilt (_ :: run.lookups.log) n =
      if n ∈ (run.registry.built.insert name _).keys then 1 else 0
    rw [timesBuilt_cons, hlog, Dict.keys_insert, if_neg hnew]
    by_cases hn : n = name
    · subst hn
      simp [Event.builds, hnew]
    · simp [Event.builds, hn, Ne.symm hn]

end Run

/-! ## The branches of a call -/

namespace RunM

variable {run : Run schema} {name : Name} {depth : Nat} {f : Fragment} {d : FragmentDefinition}

/-- Work succeeds while a fragment is under construction. -/
theorem underConstruction_of_ok {α : Type} {work : RunM schema α} {a : α} {run₁ : Run schema}
    (h : work (run.enter name) = .ok a run₁) :
    underConstruction name work run = .ok a (run₁.leave name) := by
  unfold Run.enter at h
  unfold underConstruction
  simp only [h]
  rfl

/-- Work fails while a fragment is under construction. -/
theorem underConstruction_of_error {α : Type} {work : RunM schema α} {e : BuildError}
    {run₁ : Run schema} (h : work (run.enter name) = .error e run₁) :
    underConstruction name work run = .error e (run₁.leave name) := by
  unfold Run.enter at h
  unfold underConstruction
  simp only [h]
  rfl

/-- Looking at the run and going on. -/
theorem get_bind {α : Type} (next : Run schema → RunM schema α) (run : Run schema) :
    (get >>= next) run = next run run := rfl

/-- A call for a compiled fragment returns it. -/
theorem resolveWithin_of_built (hb : run.registry.built.find? name = some f) :
    resolveWithin depth name run =
      .ok f { run with lookups.log := .reusingFragment name :: run.lookups.log } := by
  have hreuse (compile : RunM schema Fragment) : reuseOr name compile run =
      .ok f { run with lookups.log := .reusingFragment name :: run.lookups.log } := by
    rw [reuseOr, get_bind]
    simp only [hb]
    rfl
  cases depth <;> exact hreuse _

/-- A call for a fragment that is not compiled finds it under construction or compiles it. -/
theorem reuseOr_of_not_built {compile : RunM schema Fragment}
    (hb : run.registry.built.find? name = none) :
    reuseOr name compile run =
      if name ∈ run.registry.inProgress then
        .error (.fragmentCycle (run.registry.inProgress.toList.dropWhile (· ≠ name) ++ [name])) run
      else compile run := by
  rw [reuseOr, get_bind]
  simp only [hb]
  by_cases h : name ∈ run.registry.inProgress
  · simp only [OrderedSet.contains_iff, h, if_true]
    rfl
  · simp only [OrderedSet.contains_iff, h, if_false]

/-- A call for a fragment under construction reports the cycle. -/
theorem resolveWithin_of_inProgress (hb : run.registry.built.find? name = none)
    (hp : name ∈ run.registry.inProgress) :
    resolveWithin depth name run =
      .error (.fragmentCycle (run.registry.inProgress.toList.dropWhile (· ≠ name) ++ [name]))
        run := by
  cases depth <;> rw [resolveWithin, reuseOr_of_not_built hb, if_pos hp]

/-- A call for a fragment that is not defined, or that has no room left, fails. -/
theorem resolveWithin_of_unknown (hb : run.registry.built.find? name = none)
    (hp : name ∉ run.registry.inProgress)
    (hd : depth = 0 ∨ run.registry.definitions.find? name = none) :
    resolveWithin depth name run = .error (.unknownFragment name) run := by
  cases depth with
  | zero =>
    rw [resolveWithin, reuseOr_of_not_built hb, if_neg hp]
    rfl
  | succ depth =>
    rw [resolveWithin, reuseOr_of_not_built hb, if_neg hp]
    rw [get_bind]
    simp only [hd.resolve_left nofun]
    rfl

/-- A call for a fragment that is not compiled compiles it, under construction meanwhile, and keeps
it. -/
theorem resolveWithin_of_defined (hb : run.registry.built.find? name = none)
    (hp : name ∉ run.registry.inProgress)
    (hd : run.registry.definitions.find? name = some d) :
    resolveWithin (depth + 1) name run =
      match compileFragment (resolveWithin depth) d (run.enter name) with
      | .ok c run₁ => keep name c (run₁.leave name)
      | .error e run₁ => .error e (run₁.leave name) := by
  rw [resolveWithin, reuseOr_of_not_built hb, if_neg hp]
  rw [get_bind]
  simp only [hd]
  cases hc : compileFragment (resolveWithin depth) d (run.enter name) with
  | ok c run₁ => exact bind_of_ok (underConstruction_of_ok hc)
  | error e run₁ => exact bind_of_error (underConstruction_of_error hc)

/-- A call ends in one of four ways. -/
theorem resolveWithin_cases {motive : EStateM.Result BuildError (Run schema) Fragment → Prop}
    (depth : Nat) (name : Name) (run : Run schema)
    (reused : ∀ f, run.registry.built.find? name = some f →
      motive (.ok f { run with lookups.log := .reusingFragment name :: run.lookups.log }))
    (cycle : run.registry.built.find? name = none → name ∈ run.registry.inProgress →
      motive (.error (.fragmentCycle
        (run.registry.inProgress.toList.dropWhile (· ≠ name) ++ [name])) run))
    (unknown : run.registry.built.find? name = none → name ∉ run.registry.inProgress →
      (depth = 0 ∨ run.registry.definitions.find? name = none) →
      motive (.error (.unknownFragment name) run))
    (compiled : ∀ depth' d, depth = depth' + 1 → run.registry.built.find? name = none →
      name ∉ run.registry.inProgress → run.registry.definitions.find? name = some d →
      motive (match compileFragment (resolveWithin depth') d (run.enter name) with
        | .ok c run₁ => keep name c (run₁.leave name)
        | .error e run₁ => .error e (run₁.leave name))) :
    motive (resolveWithin depth name run) := by
  cases hb : run.registry.built.find? name with
  | some f =>
    rw [resolveWithin_of_built hb]
    exact reused f hb
  | none =>
    by_cases hp : name ∈ run.registry.inProgress
    · rw [resolveWithin_of_inProgress hb hp]
      exact cycle hb hp
    cases hd : run.registry.definitions.find? name with
    | none =>
      rw [resolveWithin_of_unknown hb hp (.inr hd)]
      exact unknown hb hp (.inr hd)
    | some d =>
      cases depth with
      | zero =>
        rw [resolveWithin_of_unknown hb hp (.inl rfl)]
        exact unknown hb hp (.inl rfl)
      | succ depth =>
        rw [resolveWithin_of_defined hb hp hd]
        exact compiled depth d rfl hb hp hd

/-- A call without a bound has room for every definition. -/
theorem resolve_eq : resolve name run = resolveWithin run.registry.definitions.size name run := rfl

end RunM

/-! ## Calls keep the registry in order -/

/-- What a call for `name` leads to: a registry in order with more compiled fragments. The name is
among them exactly if the call succeeds. -/
def Run.Leads (run : Run schema) (name : Name) :
    EStateM.Result BuildError (Run schema) Fragment → Prop
  | .ok f run' => run'.Kept ∧ run.registry.Extends run'.registry ∧
    run'.registry.built.find? name = some f
  | .error _ run' => run'.Kept ∧ run.registry.Extends run'.registry ∧
    run'.registry.built.find? name = none

section
variable {resolve : Name → RunM schema Fragment} {run run' : Run schema}
  {called : List (Name × Fragment)} (hr : ∀ name (run : Run schema), run.Kept →
    run.Leads name (resolve name run))
include hr

/-- Calls one after the other: what they return stays compiled. -/
theorem Calls.kept (h : Calls resolve called run run') (hk : run.Kept) :
    run'.Kept ∧ run.registry.Extends run'.registry ∧
      ∀ c ∈ called, run'.registry.built.find? c.1 = some c.2 := by
  induction h with
  | done => exact ⟨hk, .refl, by simp⟩
  | asked hq _ ih => exact ih (hk.asked hq)
  | @call called name f run run₁ run' hc _ ih =>
    have hlead := hr name run hk
    rw [hc] at hlead
    obtain ⟨hk₁, hx₁, hf⟩ := hlead
    obtain ⟨hk', hx', hcalled⟩ := ih hk₁
    refine ⟨hk', hx₁.trans hx', ?_⟩
    intro c hmem
    rcases List.mem_cons.1 hmem with rfl | hmem
    · exact hx'.built name f hf
    · exact hcalled c hmem

/-- A failure after calls. -/
theorem Stops.kept {Spread : Name → Prop} {e : BuildError} (h : Stops resolve Spread e run run')
    (hk : run.Kept) : run'.Kept ∧ run.registry.Extends run'.registry := by
  rcases h with ⟨-, called, hc⟩ | ⟨called, run₁, name, hc, -, he⟩
  · obtain ⟨hk', hx, -⟩ := hc.kept hr hk
    exact ⟨hk', hx⟩
  · obtain ⟨hk₁, hx₁, -⟩ := hc.kept hr hk
    have hlead := hr name run₁ hk₁
    rw [he] at hlead
    exact ⟨hlead.1, hx₁.trans hlead.2.1⟩

/-- What a unit references are the instances that are stored. -/
theorem Refers.holds {w : Workpiece} (h : Refers called .empty w)
    (hc : Calls resolve called run run') (hk : run.Kept) :
    ∀ use ∈ w.referenced.entries, run'.registry.Holds use := by
  obtain ⟨hk', -, hcalled⟩ := hc.kept hr hk
  intro use hu
  rcases h use hu with hu | ⟨⟨name, f⟩, hmem, hu⟩
  · cases hu
  · have hf := hcalled _ hmem
    have hentry := hk'.entry name f hf
    rcases List.mem_cons.1 hu with rfl | hu
    · have hname : f.name = name := hk'.named name _ hentry.definition
      exact ⟨f, by rw [hname]; exact hf, rfl⟩
    · exact hentry.referenced use hu

end

/-- What nested calls do to the registry while a fragment is under construction, the whole
compilation does. -/
theorem Registry.Extends.leave {run run₁ : Run schema} {name : Name}
    (hx : (run.enter name).registry.Extends run₁.registry)
    (hp : name ∉ run.registry.inProgress) :
    run.registry.Extends (run₁.leave name).registry := by
  refine ⟨hx.id, hx.definitions, ?_, hx.built, hx.size⟩
  show run₁.registry.inProgress.erase name = run.registry.inProgress
  rw [hx.inProgress]
  exact OrderedSet.erase_insert hp

/-- A call for a name, with any room for nested calls. -/
theorem resolveWithin_kept {depth : Nat} {name : Name} {run : Run schema} (hk : run.Kept) :
    run.Leads name (RunM.resolveWithin depth name run) := by
  induction depth using Nat.strongRecOn generalizing name run with
  | ind depth ih =>
  refine RunM.resolveWithin_cases depth name run ?_ ?_ ?_ ?_
  · intro f hb
    exact ⟨hk.asked fun n => by simp [timesBuilt_cons, Event.builds], .refl, hb⟩
  · intro hb hp
    exact ⟨hk, .refl, hb⟩
  · intro hb hp _
    exact ⟨hk, .refl, hb⟩
  · intro depth d hdepth hb hp hd
    have hr : ∀ m (r : Run schema), r.Kept → r.Leads m (RunM.resolveWithin depth m r) :=
      fun m r hk => ih depth (by omega) hk
    have hk₀ : (run.enter name).Kept := hk.enter hb
    have hmem : name ∈ (run.enter name).registry.inProgress :=
      OrderedSet.mem_insert.2 (.inr rfl)
    cases hc : compileFragment (RunM.resolveWithin depth) d (run.enter name) with
    | error e run₁ =>
      obtain ⟨hk₁, hx₁⟩ := (compileFragment_error hc).kept hr hk₀
      exact ⟨hk₁.leave, hx₁.leave hp, hk₁.idle name (by rw [hx₁.inProgress]; exact hmem)⟩
    | ok c run₁ =>
      obtain ⟨called, run₂, hcalls, hrun₁, hcd, hvalid, hrefers⟩ := compileFragment_ok hc
      obtain ⟨hk₂, hx₂, hcalled⟩ := hcalls.kept hr hk₀
      subst hcd
      have hnone : run₂.registry.built.find? name = none :=
        hk₂.idle name (by rw [hx₂.inProgress]; exact hmem)
      have hspreads : ∀ m ∈ Selection.spreadsAll c.definition.selections,
          ∃ g, run₂.registry.built.find? m = some g := by
        intro m hm
        obtain ⟨s, hs, hm⟩ := Selection.mem_spreadsAll.1 hm
        obtain ⟨g, hg⟩ := (hvalid s hs).spreads m hm
        exact ⟨g, hcalled _ hg⟩
      have hdef : run₂.registry.definitions.find? name = some c.definition := by
        rw [hx₂.definitions]
        exact hd
      have hcompiles : run₂.registry.Compiles schema name c :=
        ⟨depth, _, _, hmem, hc, by rw [hrun₁]; exact .refl⟩
      obtain ⟨hk', hx'⟩ := hk₂.keep hnone hdef hcompiles hspreads
        (hrefers.holds hr hcalls hk₀)
      have hkept : RunM.keep name c (run₁.leave name) =
          .ok { toCompiled := c, id := ⟨run₂.registry.id, run₂.registry.built.size⟩ }
            (run₂.kept name c) := by
        have hname : c.definition.name = name := hk.named name _ hd
        subst hrun₁ hname
        rfl
      show run.Leads name (RunM.keep name c (run₁.leave name))
      rw [hkept]
      exact ⟨hk', (hx₂.leave hp).trans hx', Dict.find?_insert_self ..⟩

/-- A request for an operation: it references instances that are stored. -/
theorem operation_kept {run : Run schema} (hk : run.Kept) (d : OperationDefinition) :
    match RunM.operation d run with
    | .ok op run' => run'.Kept ∧ run.registry.Extends run'.registry ∧
      ∀ use ∈ op.referenced.entries, run'.registry.Holds use
    | .error _ run' => run'.Kept ∧ run.registry.Extends run'.registry := by
  have hr : ∀ m (r : Run schema), r.Kept → r.Leads m (RunM.resolve m r) :=
    fun _ _ hk => resolveWithin_kept hk
  cases ho : RunM.operation d run with
  | ok op run' =>
    obtain ⟨called, hcalls, -, hrefers⟩ := compileOperation_walks.of_ok ho
    obtain ⟨hk', hx, -⟩ := hcalls.kept hr hk
    exact ⟨hk', hx, hrefers.holds hr hcalls hk⟩
  | error e run' => exact (compileOperation_walks.of_error ho).kept hr hk

/-! ## Histories keep the registry in order -/

namespace Run

variable {run run' : Run schema}

/-- One thing that happens to a run in order. -/
theorem Step.kept (h : Step run run') (hk : run.Kept) :
    run'.Kept ∧ run.registry.Grows run'.registry := by
  cases h with
  | asked hq => exact ⟨hk.asked hq, .refl⟩
  | registered he => exact hk.register he
  | entered hd hb hp =>
    exact ⟨hk.enter hb, rfl, fun _ _ h => h, fun _ _ h => h, Nat.le_refl _⟩
  | @resolved _ depth name he =>
    have hlead : run.Leads name (RunM.resolveWithin depth name run) := resolveWithin_kept hk
    rcases he with ⟨f, he⟩ | ⟨e, he⟩ <;> rw [he] at hlead <;> exact ⟨hlead.1, hlead.2.1.grows⟩
  | @operation _ d he =>
    have hlead := operation_kept hk d
    rcases he with ⟨op, he⟩ | ⟨e, he⟩ <;> rw [he] at hlead
    · exact ⟨hlead.1, hlead.2.1.grows⟩
    · exact ⟨hlead.1, hlead.2.grows⟩

/-- A history that starts in order. -/
theorem Steps.kept (h : Steps run run') (hk : run.Kept) :
    run'.Kept ∧ run.registry.Grows run'.registry := by
  induction h with
  | refl => exact ⟨hk, .refl⟩
  | tail _ hstep ih =>
    obtain ⟨hk₁, hg₁⟩ := ih
    obtain ⟨hk₂, hg₂⟩ := hstep.kept hk₁
    exact ⟨hk₂, hg₁.trans hg₂⟩

/-- Every registry with a history is in order. -/
theorem Live.kept (h : run.Live) : run.Kept := by
  obtain ⟨lookups, id, hlog, hsteps⟩ := h
  exact (hsteps.kept (.empty hlog)).1

/-- A history goes on. -/
theorem Live.step (h : run.Live) (hstep : Step run run') : run'.Live := by
  obtain ⟨lookups, id, hlog, hsteps⟩ := h
  exact ⟨lookups, id, hlog, hsteps.tail hstep⟩

/-- What a compiled fragment reaches through spreads is compiled, before it. -/
theorem Kept.built_of_spreads (hk : run.Kept) {n m : Name}
    (h : Relation.ReflTransGen run.registry.Spreads n m) {f : Fragment}
    (hf : run.registry.built.find? n = some f) :
    ∃ g, run.registry.built.find? m = some g ∧ g.id.serial ≤ f.id.serial := by
  induction h with
  | refl => exact ⟨f, hf, Nat.le_refl _⟩
  | tail _ hspread ih =>
    obtain ⟨g, hg, hle⟩ := ih
    obtain ⟨d, hd, hm⟩ := hspread
    have hentry := hk.entry _ g hg
    rw [hentry.definition] at hd
    cases hd
    obtain ⟨g', hg', hlt⟩ := hentry.spreads _ hm
    exact ⟨g', hg', by omega⟩

/-- A call for a name, from any state of any history, also one with fragments under construction,
and with any room for nested calls, leaves the definitions and what is under construction as they
were, and the compiled fragments the same instances. A fragment that is new was compiled with
success, stands under its own name, and whatever it spreads is compiled; the name of a call that
failed is not compiled. However the history goes on, each name is reported as built at most once,
exactly if it is compiled, and whatever was returned or is referenced is the instance that is
stored. -/
theorem Live.resolve_keeps {depth : Nat} {name : Name} (hlive : run.Live)
    (hcall : Ends (RunM.resolveWithin depth name) run run') :
    run'.registry.definitions = run.registry.definitions ∧
    run'.registry.inProgress = run.registry.inProgress ∧
    (∀ n f, run.registry.built.find? n = some f → run'.registry.built.find? n = some f) ∧
    (∀ n f, run'.registry.built.find? n = some f → run.registry.built.find? n = none →
      f.name = n ∧ run'.registry.Compiles schema n f.toCompiled ∧
      ∀ m, Relation.ReflTransGen run'.registry.Spreads n m → m ∈ run'.registry.built.keys) ∧
    (∀ e, RunM.resolveWithin depth name run = .error e run' →
      name ∉ run'.registry.built.keys) ∧
    ∀ later, run'.Steps later →
      (∀ n, timesBuilt later.lookups.log n = if n ∈ later.registry.built.keys then 1 else 0) ∧
      (∀ f, RunM.resolveWithin depth name run = .ok f run' →
        later.registry.built.find? name = some f) ∧
      (∀ n f, later.registry.built.find? n = some f →
        ∀ use ∈ f.referenced.entries, later.registry.Holds use) ∧
      (∀ d op last, RunM.operation d later = .ok op last →
        ∀ use ∈ op.referenced.entries, last.registry.Holds use) ∧
      ∀ n m f g, later.registry.built.find? n = some f → later.registry.built.find? m = some g →
        f.id = g.id → n = m := by
  have hk : run.Kept := hlive.kept
  have hlead : run.Leads name (RunM.resolveWithin depth name run) := resolveWithin_kept hk
  have hboth : run'.Kept ∧ run.registry.Extends run'.registry := by
    rcases hcall with ⟨f, he⟩ | ⟨e, he⟩ <;> rw [he] at hlead <;> exact ⟨hlead.1, hlead.2.1⟩
  obtain ⟨hk', hx⟩ := hboth
  refine ⟨hx.definitions, hx.inProgress, hx.built, ?_, ?_, ?_⟩
  · intro n f hf _
    have hentry := hk'.entry n f hf
    refine ⟨hk'.named n _ hentry.definition, hentry.compiled, ?_⟩
    intro m hm
    obtain ⟨g, hg, -⟩ := hk'.built_of_spreads hm hf
    exact Dict.mem_keys_iff.2 ⟨g, hg⟩
  · intro e he
    rw [he] at hlead
    exact Dict.find?_eq_none_iff.1 hlead.2.2
  · intro later hlater
    obtain ⟨hlk, hgrows⟩ := hlater.kept hk'
    refine ⟨hlk.logged, ?_, fun n f hf => (hlk.entry n f hf).referenced, ?_, hlk.distinct⟩
    · intro f he
      rw [he] at hlead
      exact hgrows.built name f hlead.2.2
    · intro d op last ho
      have hop := operation_kept hlk d
      rw [ho] at hop
      exact hop.2.2

end Run

end

namespace Sample

/-- A run whose registry knows the fragment of the document. -/
def run : Run schema where
  lookups := .fresh schema
  registry := { Registry.empty 0 with definitions := Dict.empty.insert "Parts" fragment }

/-- The run has a history. -/
theorem run_live : run.Live :=
  ⟨.fresh schema, 0, fun _ => rfl, .single (.registered (d := fragment) (.inl ⟨(), rfl⟩))⟩

/-- The fragment can be compiled. -/
theorem resolve_isSome : (returned? (RunM.resolveWithin 1 "Parts" run)).isSome = true := by
  decide +kernel

/-- Once the fragment is compiled it is stored, with one record. -/
theorem parts_kept : ∃ f run', run.Live ∧ Ends (RunM.resolveWithin 1 "Parts") run run' ∧
    RunM.resolveWithin 1 "Parts" run = .ok f run' ∧
    run'.registry.inProgress = run.registry.inProgress ∧
    run'.registry.built.find? "Parts" = some f ∧ timesBuilt run'.lookups.log "Parts" = 1 := by
  obtain ⟨⟨f, run'⟩, hr⟩ := Option.isSome_iff_exists.1 resolve_isSome
  have hcall : RunM.resolveWithin 1 "Parts" run = .ok f run' := returned?_eq_some hr
  have hends : Ends (RunM.resolveWithin 1 "Parts") run run' := .inl ⟨f, hcall⟩
  obtain ⟨-, hp, -, -, -, hlater⟩ := run_live.resolve_keeps hends
  obtain ⟨hlog, hstored, -⟩ := hlater run' .refl
  have hf := hstored f hcall
  refine ⟨f, run', run_live, hends, hcall, hp, hf, ?_⟩
  rw [hlog, if_pos (Dict.mem_keys_iff.2 ⟨f, hf⟩)]

end Sample

end EntityGraph
