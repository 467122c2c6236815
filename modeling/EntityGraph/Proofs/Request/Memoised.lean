import EntityGraph.Proofs.Walk.Anew

/-!
# A registry answers as if it had kept nothing

Every compiled fragment of a registry has the content that compiling it anew gives
(`Run.Mirrors`), so a call that finds a fragment ends as one that compiles it. The point is the
fragments under construction: a compiled fragment reaches compiled fragments only, so none of those
under construction, and compiling it anew meets no cycle (`resolveWithin_agrees`). Whatever happens
to a run, its registry stays such a mirror (`Run.Live.mirrors`). Hence two registries with the same
definitions and nothing under construction answer alike, whatever they have compiled before
(`Run.Mirrors.resolve_eq`, `Run.Mirrors.operation_eq`).
-/

namespace EntityGraph

section
variable {schema : Schema} {definitions : Dict Name FragmentDefinition} {stack : OrderedSet Name}

/-- The registry has these definitions and these fragments under construction, and what it has
compiled has the content that compiling anew gives. -/
structure Run.Mirrors (definitions : Dict Name FragmentDefinition) (stack : OrderedSet Name)
    (run : Run schema) : Prop where
  kept : run.Kept
  definitions_eq : run.registry.definitions = definitions
  inProgress_eq : run.registry.inProgress = stack
  built : ∀ n f, run.registry.built.find? n = some f →
    ∃ c, compileAnew schema definitions definitions.size ∅ n = .ok c ∧ f.content = c.content

/-- Questions do not matter. -/
theorem Run.Mirrors.quiet :
    Run.Quiet (Run.Mirrors definitions stack : Run schema → Prop) :=
  fun _ _ h hq => ⟨h.kept.asked hq, h.definitions_eq, h.inProgress_eq, h.built⟩

/-- A compiled fragment can be compiled anew while other fragments are under construction. -/
theorem Run.Mirrors.anew {run : Run schema} (h : run.Mirrors definitions stack)
    (hstack : ∀ n ∈ stack, n ∈ definitions.keys) {depth : Nat}
    (hdepth : definitions.size ≤ depth + stack.size) {name : Name} {f : Fragment}
    (hf : run.registry.built.find? name = some f) :
    ∃ c, compileAnew schema definitions depth stack name = .ok c ∧ f.content = c.content := by
  obtain ⟨c, hc, hcontent⟩ := h.built name f hf
  have hout : ∀ m ∈ stack, ¬ Relation.ReflTransGen (SpreadsIn definitions) name m := by
    intro m hm hreach
    rw [← h.definitions_eq] at hreach
    obtain ⟨g, hg, -⟩ := h.kept.built_of_spreads hreach hf
    rw [← h.inProgress_eq] at hm
    rw [h.kept.idle m hm] at hg
    cases hg
  obtain ⟨c', hc', hcontent'⟩ := compileAnew_unchanged hc (fun _ _ hd => hd) hstack hout hdepth
  exact ⟨c', hc', hcontent.trans hcontent'⟩

/-- A fragment is put under construction. -/
theorem Run.Mirrors.enter {run : Run schema} (h : run.Mirrors definitions stack) {name : Name}
    (hb : run.registry.built.find? name = none) :
    (run.enter name).Mirrors definitions (stack.insert name) := by
  refine ⟨h.kept.enter hb, h.definitions_eq, ?_, h.built⟩
  show run.registry.inProgress.insert name = _
  rw [h.inProgress_eq]

/-- The registry of a call that ended has the same definitions and the same fragments under
construction. -/
theorem Run.Mirrors.extend {run run' : Run schema} (h : run.Mirrors definitions stack)
    (hk : run'.Kept) (hx : run.registry.Extends run'.registry)
    (hbuilt : ∀ n f, run'.registry.built.find? n = some f →
      ∃ c, compileAnew schema definitions definitions.size ∅ n = .ok c ∧ f.content = c.content) :
    run'.Mirrors definitions stack :=
  ⟨hk, hx.definitions.trans h.definitions_eq, hx.inProgress.trans h.inProgress_eq, hbuilt⟩

/-- One more fragment is compiled, to what compiling it anew gives. -/
theorem Run.Mirrors.built_insert {run : Run schema} (h : run.Mirrors definitions stack)
    {name : Name} {f : Fragment}
    (hf : ∃ c, compileAnew schema definitions definitions.size ∅ name = .ok c ∧
      f.content = c.content) :
    ∀ n g, (run.registry.built.insert name f).find? n = some g →
      ∃ c, compileAnew schema definitions definitions.size ∅ n = .ok c ∧ g.content = c.content := by
  intro n g hg
  rw [Dict.find?_insert] at hg
  split at hg
  · next hn =>
    cases hg
    rwa [hn]
  · exact h.built n g hg

/-- A call for a name ends as compiling it anew does. With little room for nested calls a call may
fail where compiling anew with enough room would not. -/
theorem resolveWithin_agrees {strict : Prop} {depth depth' : Nat} {name : Name}
    (hstrict : strict → depth = depth') (hstack : ∀ n ∈ stack, n ∈ definitions.keys)
    (hdepth : definitions.size ≤ depth' + stack.size) :
    RunM.Agrees strict (Run.Mirrors definitions stack)
      (RunM.resolveWithin depth name : RunM schema Fragment)
      (replay (compileAnew schema definitions depth' stack name)) Fragment.Alike := by
  induction depth using Nat.strongRecOn generalizing depth' stack name with
  | ind depth ih =>
  intro run₁ run₂ hI
  have hlead : run₁.Leads name (RunM.resolveWithin depth name run₁) := resolveWithin_kept hI.kept
  revert hlead
  refine RunM.resolveWithin_cases (motive := fun r => run₁.Leads name r →
    RunM.Alike strict (Run.Mirrors definitions stack) (Run.Mirrors definitions stack)
      Fragment.Alike (replay (compileAnew schema definitions depth' stack name) run₂) r)
    depth name run₁ ?_ ?_ ?_ ?_
  · intro f hf hlead
    obtain ⟨c, hc, hcontent⟩ := hI.anew hstack hdepth hf
    rw [hc]
    refine ⟨⟨hlead.1, hI.definitions_eq, hI.inProgress_eq, hI.built⟩, _, run₂, rfl, hcontent⟩
  · intro hb hp _
    refine ⟨hI, fun _ => ⟨run₂, ?_⟩⟩
    rw [hI.inProgress_eq] at hp ⊢
    rw [compileAnew_of_mem hp]
    rfl
  · intro hb hp hd _
    refine ⟨hI, fun hs => ⟨run₂, ?_⟩⟩
    rw [hI.inProgress_eq] at hp
    rw [hI.definitions_eq, hstrict hs] at hd
    rw [compileAnew_of_unknown hp hd]
    rfl
  · intro depth₀ d hdepth₀ hb hp hd hlead
    have hname : name ∉ stack := by rwa [← hI.inProgress_eq]
    have hdef : definitions.find? name = some d := by rwa [← hI.definitions_eq]
    have hkey : name ∈ definitions.keys := Dict.mem_keys_iff.2 ⟨d, hdef⟩
    have hroom := OrderedSet.size_lt_of_not_mem hstack hkey hname
    obtain ⟨depth', rfl⟩ : ∃ k, depth' = k + 1 := ⟨depth' - 1, by omega⟩
    have hstack₀ := OrderedSet.insert_defined hstack hkey
    have hdepth₁ : definitions.size ≤ depth' + (stack.insert name).size := by
      rw [OrderedSet.size_insert hname]
      omega
    have hr : ∀ m ∈ Selection.spreadsAll d.selections,
        RunM.Agrees strict (Run.Mirrors definitions (stack.insert name))
          (RunM.resolveWithin depth₀ m : RunM schema Fragment)
          (replay (compileAnew schema definitions depth' (stack.insert name) m))
          Fragment.Alike := by
      intro m _
      refine ih depth₀ (by omega) (fun hs => ?_) hstack₀ hdepth₁
      have := hstrict hs
      omega
    have hagrees :=
      compileFragment_agrees Run.Mirrors.quiet hr (run₁.enter name) .blank (hI.enter hb)
    cases hc : compileFragment (RunM.resolveWithin depth₀) d (run₁.enter name) with
    | error e run₁' =>
      rw [hc] at hagrees hlead
      obtain ⟨hI', hfails⟩ := hagrees
      obtain ⟨hk, hx, -⟩ := hlead
      refine ⟨hI.extend hk hx hI'.built, fun hs => ?_⟩
      obtain ⟨run₂', hc'⟩ := hfails hs
      refine ⟨run₂, ?_⟩
      rw [compileAnew_of_defined hname hdef, hc']
      rfl
    | ok c run₁' =>
      rw [hc] at hagrees hlead
      obtain ⟨⟨run₀, hI', hregistry⟩, c', run₂', hc', hcontent⟩ := hagrees
      obtain ⟨hk, hx, -⟩ := hlead
      have hanew : compileAnew schema definitions (depth' + 1) stack name = .ok c' := by
        rw [compileAnew_of_defined hname hdef, hc']
        rfl
      have hreplay : replay (compileAnew schema definitions (depth' + 1) stack name) run₂ =
          .ok { toCompiled := c', id := ⟨0, 0⟩ } run₂ := by
        rw [hanew]
        rfl
      refine ⟨hI.extend hk hx ?_, _, run₂, hreplay, hcontent⟩
      obtain ⟨c'', hc'', hcontent''⟩ := compileAnew_alone hanew fun _ _ hd => hd
      change ∀ n f, (run₁'.registry.built.insert name _).find? n = some f → _
      rw [hregistry]
      exact hI'.built_insert ⟨c'', hc'', hcontent.trans hcontent''⟩

section
variable {strict : Prop} (hstack : ∀ n ∈ stack, n ∈ definitions.keys)
include hstack

/-- A call without a bound. -/
theorem resolve_agrees {name : Name} :
    RunM.Agrees strict (Run.Mirrors definitions stack)
      (RunM.resolve name : RunM schema Fragment)
      (replay (compileAnew schema definitions definitions.size stack name)) Fragment.Alike := by
  have hagrees : RunM.Agrees strict (Run.Mirrors definitions stack)
      (RunM.resolveWithin definitions.size name : RunM schema Fragment)
      (replay (compileAnew schema definitions definitions.size stack name)) Fragment.Alike :=
    resolveWithin_agrees (fun _ => rfl) hstack (Nat.le_add_right _ _)
  intro run₁ run₂ hI
  rw [RunM.resolve_eq, hI.definitions_eq]
  exact hagrees run₁ run₂ hI

/-- An operation is compiled as if its spreads were compiled anew. -/
theorem operation_agrees {d : OperationDefinition} :
    RunM.Agrees strict (Run.Mirrors definitions stack)
      (RunM.operation d : RunM schema Operation)
      (compileOperation
        (fun m => replay (compileAnew schema definitions definitions.size stack m)) d)
      fun op op' => op.content = op'.content :=
  compileOperation_agrees Run.Mirrors.quiet fun _ _ => resolve_agrees hstack

end

/-! ## Histories -/

/-- However the first piece of work ends, its run keeps the property. -/
theorem RunM.Agrees.of_ends {α β : Type} {strict : Prop} {I : Run schema → Prop}
    {work₁ : RunM schema α} {work₂ : RunM schema β} {R : α → β → Prop}
    (h : RunM.Agrees strict I work₁ work₂ R) {run run' : Run schema} (hI : I run)
    (he : Ends work₁ run run') : I run' := by
  have h := h run .blank hI
  rcases he with ⟨a, he⟩ | ⟨e, he⟩ <;> rw [he] at h <;> exact h.1

/-- The content of what was compiled at some time is that of compiling anew. -/
theorem Run.Step.mirrors {run run' : Run schema} (h : Run.Step run run')
    (hI : run.Mirrors run.registry.definitions run.registry.inProgress)
    (hstack : ∀ n ∈ run.registry.inProgress, n ∈ run.registry.definitions.keys) :
    run'.Mirrors run'.registry.definitions run'.registry.inProgress ∧
      ∀ n ∈ run'.registry.inProgress, n ∈ run'.registry.definitions.keys := by
  have hk' := (h.kept hI.kept).1
  have hg := (h.kept hI.kept).2
  cases h with
  | asked hq => exact ⟨⟨hk', rfl, rfl, hI.built⟩, hstack⟩
  | @registered registry d he =>
    have hsame : registry.built = run.registry.built ∧
        registry.inProgress = run.registry.inProgress := by
      rcases he with ⟨_, he⟩ | ⟨_, he⟩ <;> unfold Registry.register at he <;> split at he <;>
        cases he <;> exact ⟨rfl, rfl⟩
    refine ⟨⟨hk', rfl, rfl, ?_⟩, ?_⟩
    · intro n f hf
      change registry.built.find? n = some f at hf
      rw [hsame.1] at hf
      obtain ⟨c, hc, hcontent⟩ := hI.built n f hf
      obtain ⟨c', hc', hcontent'⟩ := compileAnew_alone hc hg.definitions
      exact ⟨c', hc', hcontent.trans hcontent'⟩
    · intro n hn
      change n ∈ registry.inProgress at hn
      rw [hsame.2] at hn
      obtain ⟨d', hd'⟩ := Dict.mem_keys_iff.1 (hstack n hn)
      exact Dict.mem_keys_iff.2 ⟨d', hg.definitions n d' hd'⟩
  | @entered name d hd hb hp =>
    refine ⟨⟨hk', rfl, rfl, hI.built⟩, ?_⟩
    intro n hn
    rcases OrderedSet.mem_insert.1 hn with hn | rfl
    · exact hstack n hn
    · exact Dict.mem_keys_iff.2 ⟨d, hd⟩
  | @resolved _ depth name he =>
    have hagrees : RunM.Agrees False (Run.Mirrors run.registry.definitions run.registry.inProgress)
        (RunM.resolveWithin depth name : RunM schema Fragment)
        (replay (compileAnew schema run.registry.definitions run.registry.definitions.size
          run.registry.inProgress name)) Fragment.Alike :=
      resolveWithin_agrees False.elim hstack (Nat.le_add_right _ _)
    have hI' := hagrees.of_ends hI he
    rw [hI'.definitions_eq, hI'.inProgress_eq]
    exact ⟨hI', hstack⟩
  | @operation _ d he =>
    have hagrees : RunM.Agrees False (Run.Mirrors run.registry.definitions run.registry.inProgress)
        (RunM.operation d : RunM schema Operation) _ _ := operation_agrees hstack
    have hI' := hagrees.of_ends hI he
    rw [hI'.definitions_eq, hI'.inProgress_eq]
    exact ⟨hI', hstack⟩

/-- The same after a whole history. -/
theorem Run.Live.mirrors_defined {run : Run schema} (h : run.Live) :
    run.Mirrors run.registry.definitions run.registry.inProgress ∧
      ∀ n ∈ run.registry.inProgress, n ∈ run.registry.definitions.keys := by
  obtain ⟨lookups, id, hlog, hsteps⟩ := h
  induction hsteps with
  | refl => exact ⟨⟨.empty hlog, rfl, rfl, by intro n f hf; cases hf⟩, by intro n hn; cases hn⟩
  | tail _ hstep ih => exact hstep.mirrors ih.1 ih.2

/-- What a registry with a history has compiled has the content that compiling anew gives. -/
theorem Run.Live.mirrors {run : Run schema} (h : run.Live) :
    run.Mirrors run.registry.definitions run.registry.inProgress :=
  h.mirrors_defined.1

/-- A run on a new registry with the same definitions. -/
def Run.restart (run : Run schema) : Run schema where
  lookups := .fresh schema
  registry := { Registry.empty run.registry.id with definitions := run.registry.definitions }

/-- Nothing is compiled there. -/
theorem Run.Kept.mirrors_restart {run : Run schema} (h : run.Kept) :
    run.restart.Mirrors run.registry.definitions ∅ where
  kept :=
    { named := h.named
      entry := by intro n f hf; cases hf
      distinct := by intro n m f g hf; cases hf
      idle := by intro n hn; cases hn
      logged := fun _ => rfl }
  definitions_eq := rfl
  inProgress_eq := rfl
  built := by
    intro n f hf
    cases hf

/-- Work that agrees with the same other work ends alike in any two runs. -/
theorem RunM.Agrees.outcome_eq {α β γ : Type} {I : Run schema → Prop} {work₁ : RunM schema α}
    {work₂ : RunM schema β} {view : α → γ} {view' : β → γ}
    (h : RunM.Agrees True I work₁ work₂ fun a b => view a = view' b) {run : Run schema}
    (hI : I run) : (outcome (work₁ run)).map view = (outcome (work₂ .blank)).map view' := by
  have h := h run .blank hI
  cases hw : work₁ run with
  | ok a run' =>
    rw [hw] at h
    obtain ⟨-, b, run₂, hw₂, hview⟩ := h
    rw [hw₂]
    exact congrArg Except.ok hview
  | error e run' =>
    rw [hw] at h
    obtain ⟨run₂, hw₂⟩ := h.2 trivial
    rw [hw₂]
    rfl

section
variable {run run' : Run schema} (h : run.Mirrors definitions ∅) (h' : run'.Mirrors definitions ∅)
include h h'

/-- Two registries with the same definitions and nothing under construction resolve a name to the
same content. -/
theorem Run.Mirrors.resolve_eq (name : Name) :
    (outcome (RunM.resolve name run)).map (·.content) =
      (outcome (RunM.resolve name run')).map (·.content) := by
  have hagrees : RunM.Agrees True (Run.Mirrors definitions ∅)
      (RunM.resolve name : RunM schema Fragment)
      (replay (compileAnew schema definitions definitions.size ∅ name)) Fragment.Alike :=
    resolve_agrees (by intro n hn; cases hn)
  exact (hagrees.outcome_eq h).trans (hagrees.outcome_eq h').symm

/-- They compile an operation to the same content. -/
theorem Run.Mirrors.operation_eq (d : OperationDefinition) :
    (outcome (RunM.operation d run)).map (·.content) =
      (outcome (RunM.operation d run')).map (·.content) := by
  have hagrees : RunM.Agrees True (Run.Mirrors definitions ∅)
      (RunM.operation d : RunM schema Operation)
      (compileOperation (fun m => replay (compileAnew schema definitions definitions.size ∅ m)) d)
      fun op op' => op.content = op'.content :=
    operation_agrees (by intro n hn; cases hn)
  exact (hagrees.outcome_eq h).trans (hagrees.outcome_eq h').symm

end

end

end EntityGraph
