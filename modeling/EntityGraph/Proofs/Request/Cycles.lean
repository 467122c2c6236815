import EntityGraph.Proofs.Request.Builders
import Mathlib.Data.List.Chain

/-!
# Cycles of fragments

The fragments under construction form a path through the graph of spreads that ends at the next
fragment asked for. To ask for one of them closes the path, so what is reported is a cycle of that
graph (`Registry.Cycle`), and every entry of it can be reached from what was requested
(`resolveWithin_cycle`, by induction on the depth). On the other hand a fragment is compiled after
all that it spreads, so what is compiled has no cycle (`Run.Kept.acyclic`). Together: a request
succeeds only if nothing that it reaches is undefined or on a cycle, and reports a cycle only if
there is one (`Run.Live.detects_cycles`).
-/

namespace EntityGraph

section
variable {schema : Schema}

/-! ## The graph of spreads -/

namespace Registry

/-- The fragment can be reached through spreads from one of some names. -/
def Reached (registry : Registry) (starts : List Name) (m : Name) : Prop :=
  ∃ n ∈ starts, Relation.ReflTransGen registry.Spreads n m

/-- The path leads from a fragment through spreads back to it, and comes to no fragment twice
before. -/
structure Cycle (registry : Registry) (path : List Name) : Prop where
  long : 2 ≤ path.length
  closed : path.head? = path.getLast?
  distinct : path.dropLast.Nodup
  linked : path.IsChain registry.Spreads

variable {registry registry' : Registry}

/-- The graph depends on the definitions only. -/
theorem Spreads.of_definitions (h : registry'.definitions = registry.definitions) :
    registry'.Spreads = registry.Spreads := by
  unfold Spreads
  rw [h]

/-- The first fragment of a cycle spreads itself, directly or not. -/
theorem Cycle.transGen {path : List Name} (h : registry.Cycle path) :
    ∃ n ∈ path, Relation.TransGen registry.Spreads n n := by
  obtain ⟨hlong, hclosed, -, hlinked⟩ := h
  match path with
  | [] => simp at hlong
  | [_] => simp at hlong
  | a :: b :: rest =>
    have hlast : a = (b :: rest).getLast (by simp) := by
      have hlast := List.getLast?_eq_some_getLast (l := b :: rest) (by simp)
      rw [List.head?_cons, List.getLast?_cons_cons, hlast] at hclosed
      exact Option.some.inj hclosed
    obtain ⟨hab, hrest⟩ := List.isChain_cons_cons.1 hlinked
    have hba : Relation.ReflTransGen registry.Spreads b a :=
      List.relationReflTransGen_of_exists_isChain_cons rest hrest hlast.symm
    exact ⟨a, .head _, Relation.TransGen.head' hab hba⟩

/-- Dropping what comes before a name leaves the name at the front. -/
theorem exists_dropWhile_ne {name : Name} {l : List Name} (h : name ∈ l) :
    ∃ rest, l.dropWhile (· ≠ name) = name :: rest := by
  induction l with
  | nil => cases h
  | cons a l ih =>
    by_cases ha : a = name
    · exact ⟨l, by simp [ha]⟩
    · obtain ⟨rest, hrest⟩ := ih (by simpa [Ne.symm ha] using h)
      exact ⟨rest, by simpa [List.dropWhile_cons, ha] using hrest⟩

/-- To ask for a fragment on the path closes the path. -/
theorem cycle_of_path {stack : OrderedSet Name} {name : Name} (hmem : name ∈ stack)
    (hpath : (stack.toList ++ [name]).IsChain registry.Spreads) :
    registry.Cycle (stack.toList.dropWhile (· ≠ name) ++ [name]) := by
  have hsuffix : stack.toList.dropWhile (· ≠ name) <:+ stack.toList := List.dropWhile_suffix _
  obtain ⟨rest, hrest⟩ := exists_dropWhile_ne hmem
  rw [hrest] at hsuffix ⊢
  refine ⟨by simp, by rw [List.getLast?_concat]; rfl, ?_, ?_⟩
  · rw [List.dropLast_concat]
    exact stack.nodup.sublist hsuffix.sublist
  · obtain ⟨before, hbefore⟩ := hsuffix
    exact hpath.suffix ⟨before, by rw [← List.append_assoc, hbefore]⟩

end Registry

/-! ## What is reported -/

/-- A cycle that is reported while fragments are under construction is one of the graph, and each of
its fragments is under construction or can be reached from the name that was asked for. -/
theorem resolveWithin_cycle {depth : Nat} {name : Name} {run run' : Run schema}
    {path : List Name} (hk : run.Kept)
    (hpath : (run.registry.inProgress.toList ++ [name]).IsChain run.registry.Spreads)
    (he : RunM.resolveWithin depth name run = .error (.fragmentCycle path) run') :
    run.registry.Cycle path ∧
      ∀ m ∈ path, m ∈ run.registry.inProgress ∨
        Relation.ReflTransGen run.registry.Spreads name m := by
  induction depth using Nat.strongRecOn generalizing name run run' with
  | ind depth ih =>
  revert he
  refine RunM.resolveWithin_cases
    (motive := fun r => r = .error (.fragmentCycle path) run' → _) depth name run ?_ ?_ ?_ ?_
  · intro f _ he
    cases he
  · intro hb hp he
    cases he
    refine ⟨Registry.cycle_of_path hp hpath, ?_⟩
    intro m hm
    rcases List.mem_append.1 hm with hm | hm
    · exact .inl ((List.dropWhile_sublist _).subset hm)
    · exact .inr (by rw [List.mem_singleton.1 hm])
  · intro _ _ _ he
    cases he
  · intro depth d hdepth hb hp hd he
    have hr : ∀ m (r : Run schema), r.Kept → r.Leads m (RunM.resolveWithin depth m r) :=
      fun _ _ hk => resolveWithin_kept hk
    cases hc : compileFragment (RunM.resolveWithin depth) d (run.enter name) with
    | ok c run₁ =>
      rw [hc] at he
      cases he
    | error e run₁ =>
      rw [hc] at he
      cases he
      rcases compileFragment_error hc with ⟨hplain, -⟩ | ⟨called, run₂, m, hcalls, hm, he⟩
      · exact absurd rfl (hplain path)
      · obtain ⟨hk₂, hx₂, -⟩ := hcalls.kept hr (hk.enter hb)
        -- the nested call goes on along the path, past `name`
        have hspreads : run₂.registry.Spreads = run.registry.Spreads :=
          Registry.Spreads.of_definitions hx₂.definitions
        have hstack :
            run₂.registry.inProgress.toList = run.registry.inProgress.toList ++ [name] := by
          rw [hx₂.inProgress]
          show (run.registry.inProgress.insert name).toList = _
          rw [OrderedSet.toList_insert, if_neg hp]
        have hedge : run.registry.Spreads name m := ⟨d, hd, hm⟩
        have hpath₂ : (run₂.registry.inProgress.toList ++ [m]).IsChain run₂.registry.Spreads := by
          rw [hstack, hspreads]
          refine hpath.append (.singleton m) ?_
          simpa using hedge
        obtain ⟨hcycle, hmem⟩ := ih depth (by omega) hk₂ hpath₂ he
        refine ⟨⟨hcycle.long, hcycle.closed, hcycle.distinct, hspreads ▸ hcycle.linked⟩, ?_⟩
        intro x hx
        rcases hmem x hx with hin | hreach
        · rw [← OrderedSet.mem_toList, hstack, List.mem_append, List.mem_singleton] at hin
          exact hin.imp_right fun e => by rw [e]
        · rw [hspreads] at hreach
          exact .inr (hreach.head hedge)

/-! ## What is compiled -/

/-- No compiled fragment reaches itself. -/
theorem Run.Kept.acyclic {run : Run schema} (hk : run.Kept) {m : Name} {f : Fragment}
    (hf : run.registry.built.find? m = some f) : ¬ Relation.TransGen run.registry.Spreads m m := by
  intro h
  obtain ⟨n, hspread, hreach⟩ := Relation.TransGen.head'_iff.1 h
  obtain ⟨d, hd, hm⟩ := hspread
  have hentry := hk.entry m f hf
  rw [hentry.definition] at hd
  cases hd
  obtain ⟨g, hg, hlt⟩ := hentry.spreads n hm
  obtain ⟨f', hf', hle⟩ := hk.built_of_spreads hreach hg
  rw [hf] at hf'
  cases hf'
  omega

/-! ## Requests -/

/-- How the outcome of a request tells about cycles, where the request starts from some names. -/
structure Run.Detects {α : Type} (run : Run schema) (starts : List Name)
    (result : EStateM.Result BuildError (Run schema) α) : Prop where
  built : ∀ a run', result = .ok a run' → ∀ m, run.registry.Reached starts m →
    (∃ d, run.registry.definitions.find? m = some d) ∧ m ∈ run'.registry.built.keys ∧
      ¬ Relation.TransGen run.registry.Spreads m m
  reported : ∀ path run', result = .error (.fragmentCycle path) run' →
    run.registry.Cycle path ∧ ∀ m ∈ path, run.registry.Reached starts m

namespace Run.Detects

variable {α : Type} {run : Run schema} {starts : List Name}
  {result : EStateM.Result BuildError (Run schema) α}

/-- Where no cycle can be reached none is reported. -/
theorem not_reported (h : run.Detects starts result)
    (hacyclic : ∀ m, run.registry.Reached starts m → ¬ Relation.TransGen run.registry.Spreads m m)
    (path : List Name) (run' : Run schema) : result ≠ .error (.fragmentCycle path) run' := by
  intro he
  obtain ⟨hcycle, hreached⟩ := h.reported path run' he
  obtain ⟨n, hn, hloop⟩ := hcycle.transGen
  exact hacyclic n (hreached n hn) hloop

/-- Where a cycle can be reached nothing is built. -/
theorem not_built (h : run.Detects starts result) {m : Name}
    (hm : run.registry.Reached starts m) (hloop : Relation.TransGen run.registry.Spreads m m)
    (a : α) (run' : Run schema) : result ≠ .ok a run' := by
  intro he
  obtain ⟨-, -, hacyclic⟩ := h.built a run' he m hm
  exact hacyclic hloop

/-- If all that a request starts from is compiled afterwards, then so is all that it reaches. -/
theorem of_built {run' : Run schema} {a : α} (hk' : run'.Kept)
    (hx : run.registry.Extends run'.registry)
    (hstarts : ∀ n ∈ starts, ∃ f, run'.registry.built.find? n = some f) :
    run.Detects starts (.ok a run') := by
  have hspreads : run'.registry.Spreads = run.registry.Spreads :=
    Registry.Spreads.of_definitions hx.definitions
  refine ⟨?_, by intro path r he; cases he⟩
  intro a' r he m hm
  cases he
  obtain ⟨n, hn, hreach⟩ := hm
  obtain ⟨f, hf⟩ := hstarts n hn
  rw [← hspreads] at hreach
  obtain ⟨g, hg, -⟩ := hk'.built_of_spreads hreach hf
  refine ⟨⟨g.definition, ?_⟩, Dict.mem_keys_iff.2 ⟨g, hg⟩, ?_⟩
  · rw [← hx.definitions]
    exact (hk'.entry m g hg).definition
  · rw [← hspreads]
    exact hk'.acyclic hg

end Run.Detects

section
variable {run : Run schema} (hlive : run.Live) (hidle : run.registry.inProgress = ∅)
include hlive hidle

/-- A request for a fragment. -/
theorem resolve_detects (name : Name) : run.Detects [name] (RunM.resolve name run) := by
  have hlead : run.Leads name (RunM.resolve name run) := resolveWithin_kept hlive.kept
  cases hr : RunM.resolve name run with
  | ok f run' =>
    rw [hr] at hlead
    obtain ⟨hk', hx, hf⟩ := hlead
    exact .of_built hk' hx (by simpa using ⟨f, hf⟩)
  | error e run' =>
    refine ⟨(by intro a r he; cases he), ?_⟩
    intro path r he
    cases he
    have hpath : (run.registry.inProgress.toList ++ [name]).IsChain run.registry.Spreads := by
      rw [hidle]
      exact .singleton name
    obtain ⟨hcycle, hmem⟩ := resolveWithin_cycle hlive.kept hpath hr
    refine ⟨hcycle, fun m hm => ⟨name, .head _, (hmem m hm).resolve_left ?_⟩⟩
    rw [hidle]
    exact nofun

/-- A request for an operation. -/
theorem operation_detects (d : OperationDefinition) :
    run.Detects (Selection.spreadsAll d.selections) (RunM.operation d run) := by
  have hr : ∀ m (r : Run schema), r.Kept → r.Leads m (RunM.resolve m r) :=
    fun _ _ hk => resolveWithin_kept hk
  cases ho : RunM.operation d run with
  | ok op run' =>
    obtain ⟨called, hcalls, ⟨type, -, hvalid⟩, -⟩ := compileOperation_walks.of_ok ho
    obtain ⟨hk', hx, hcalled⟩ := hcalls.kept hr hlive.kept
    refine .of_built hk' hx ?_
    intro n hn
    obtain ⟨s, hs, hn⟩ := Selection.mem_spreadsAll.1 hn
    obtain ⟨f, hf⟩ := (hvalid s hs).spreads n hn
    exact ⟨f, hcalled _ hf⟩
  | error e run' =>
    refine ⟨(by intro a r he; cases he), ?_⟩
    intro path r he
    cases he
    rcases compileOperation_walks.of_error ho with ⟨hplain, -⟩ | ⟨called, run₁, n, hcalls, hn, he⟩
    · exact absurd rfl (hplain path)
    · obtain ⟨hk₁, hx₁, -⟩ := hcalls.kept hr hlive.kept
      have hspreads : run₁.registry.Spreads = run.registry.Spreads :=
        Registry.Spreads.of_definitions hx₁.definitions
      have hempty : run₁.registry.inProgress = ∅ := hx₁.inProgress.trans hidle
      have hpath : (run₁.registry.inProgress.toList ++ [n]).IsChain run₁.registry.Spreads := by
        rw [hempty]
        exact .singleton n
      obtain ⟨hcycle, hmem⟩ := resolveWithin_cycle hk₁ hpath he
      refine ⟨⟨hcycle.long, hcycle.closed, hcycle.distinct, hspreads ▸ hcycle.linked⟩, ?_⟩
      intro m hm
      refine ⟨n, hn, hspreads ▸ (hmem m hm).resolve_left ?_⟩
      rw [hempty]
      exact nofun

end

/-- A request for a whole document is one for each of its definitions. -/
theorem Builder.Standing.document_detects {document : Document} {b : Builder schema}
    (hb : b.Standing document) :
    (∀ compiled b', Builder.buildDocument b = .ok compiled b' →
      ∀ m, ¬ Relation.TransGen b.run.registry.Spreads m m) ∧
    ((∀ m, ¬ Relation.TransGen b.run.registry.Spreads m m) → ∀ path b',
      Builder.buildDocument b ≠ .error (.fragmentCycle path) b') := by
  -- the graph is the same for all builders of the document
  have hgraph : ∀ b' : Builder schema, b'.Standing document →
      b'.run.registry.Spreads = b.run.registry.Spreads := by
    intro b' hb'
    funext n m
    simp only [Registry.Spreads, hb.defines_iff, hb'.defines_iff]
  have hmeets : Builder.Meets document (Builder.buildDocument : BuilderM schema _)
      (fun _ => ∀ d ∈ document.fragments, ¬ Relation.TransGen b.run.registry.Spreads d.name d.name)
      (fun e => (∀ m, ¬ Relation.TransGen b.run.registry.Spreads m m) →
        ∀ path, e ≠ .fragmentCycle path) := by
    refine Builder.Meets.get.bind fun b₀ hdoc => ?_
    rw [hdoc]
    have hops : Builder.Meets document
        (document.operations.mapM (Builder.buildOperation : _ → BuilderM schema Operation))
        (fun _ => ∀ d ∈ document.operations, True)
        (fun e => (∀ m, ¬ Relation.TransGen b.run.registry.Spreads m m) →
          ∀ path, e ≠ .fragmentCycle path) := by
      refine .mapM fun d _ => .operation (fun _ _ => nofun) fun b' hb' => ?_
      have hdet := operation_detects hb'.live hb'.idle d
      cases ho : RunM.operation d b'.run with
      | ok op run => trivial
      | error e run =>
        intro hacyclic path he
        refine hdet.not_reported (fun m _ => ?_) path run (by rw [ho, he])
        rw [hgraph b' hb']
        exact hacyclic m
    refine hops.bind fun operations _ => ?_
    refine Builder.Meets.bind (.mapM fun d hd => .fragment (fun _ _ => nofun) fun b' hb' => ?_)
      fun fragments hall => .pure hall
    have hdet := resolve_detects hb'.live hb'.idle d.name
    cases hr : RunM.resolve d.name b'.run with
    | ok f run =>
      have hself : b'.run.registry.Reached [d.name] d.name := ⟨d.name, .head _, .refl⟩
      rw [← hgraph b' hb']
      exact (hdet.built f run hr d.name hself).2.2
    | error e run =>
      intro hacyclic path he
      refine hdet.not_reported (fun m _ => ?_) path run (by rw [hr, he])
      rw [hgraph b' hb']
      exact hacyclic m
  have hend := hmeets b hb
  constructor
  · intro compiled b' he m hloop
    rw [he] at hend
    -- a fragment on a cycle spreads something, so it is a definition of the document
    obtain ⟨n, ⟨d, hd, -⟩, -⟩ := Relation.TransGen.head'_iff.1 hloop
    obtain ⟨hmem, rfl⟩ := hb.defines_iff.1 hd
    exact hend.2 d hmem hloop
  · intro hacyclic path b' he
    rw [he] at hend
    exact hend.2 hacyclic path rfl

/-- With nothing under construction, a request for a fragment or an operation that succeeds has
compiled every fragment that it reaches, and none of these is on a cycle; a cycle that it reports is
a cycle of the graph of spreads, and the request reaches it. So nothing is reported where no cycle
can be reached, and nothing is built where one can; and a builder reports no cycle for a document
without cycles, and does not build one that has a cycle. -/
theorem Run.Live.detects_cycles {run : Run schema} (hlive : run.Live)
    (hidle : run.registry.inProgress = ∅) :
    (∀ name, run.Detects [name] (RunM.resolve name run) ∧
      ((∀ m, run.registry.Reached [name] m → ¬ Relation.TransGen run.registry.Spreads m m) →
        ∀ path run', RunM.resolve name run ≠ .error (.fragmentCycle path) run') ∧
      ∀ m, run.registry.Reached [name] m → Relation.TransGen run.registry.Spreads m m →
        ∀ f run', RunM.resolve name run ≠ .ok f run') ∧
    (∀ d : OperationDefinition,
      run.Detects (Selection.spreadsAll d.selections) (RunM.operation d run) ∧
      ((∀ m, run.registry.Reached (Selection.spreadsAll d.selections) m →
          ¬ Relation.TransGen run.registry.Spreads m m) →
        ∀ path run', RunM.operation d run ≠ .error (.fragmentCycle path) run') ∧
      ∀ m, run.registry.Reached (Selection.spreadsAll d.selections) m →
        Relation.TransGen run.registry.Spreads m m →
        ∀ op run', RunM.operation d run ≠ .ok op run') ∧
    ∀ (document : Document) (b : Builder schema), b.Reachable schema document → b.run = run →
      ((∀ m, ¬ Relation.TransGen run.registry.Spreads m m) → ∀ path b',
        Builder.buildDocument b ≠ .error (.fragmentCycle path) b') ∧
      ∀ m, Relation.TransGen run.registry.Spreads m m → ∀ compiled b',
        Builder.buildDocument b ≠ .ok compiled b' := by
  refine ⟨fun name => ?_, fun d => ?_, fun document b hb hrun => ?_⟩
  · have hdet := resolve_detects hlive hidle name
    exact ⟨hdet, hdet.not_reported, fun m hm hloop => hdet.not_built hm hloop⟩
  · have hdet := operation_detects hlive hidle d
    exact ⟨hdet, hdet.not_reported, fun m hm hloop => hdet.not_built hm hloop⟩
  · subst hrun
    obtain ⟨hbuilt, hreported⟩ := hb.standing.document_detects
    exact ⟨hreported, fun m hloop compiled b' he => hbuilt compiled b' he m hloop⟩

end

namespace Sample

/-- A fragment that spreads another one. -/
def spreading (name other : Name) : FragmentDefinition where
  location := place
  name := name
  selections := [.spread other place]
  condition := "Leaf"

/-- A run whose registry knows two fragments that spread each other. -/
def looping : Run schema where
  lookups := .fresh schema
  registry := { Registry.empty 0 with
    definitions := (Dict.empty.insert "There" (spreading "There" "Back")).insert "Back"
      (spreading "Back" "There") }

/-- The run has a history. -/
theorem looping_live : looping.Live :=
  ⟨.fresh schema, 0, fun _ => rfl, .tail
    (.single (.registered (d := spreading "There" "Back") (.inl ⟨(), rfl⟩)))
    (.registered (d := spreading "Back" "There") (.inl ⟨(), rfl⟩))⟩

/-- The cycle that was reported. -/
def cycle? {α σ : Type} : EStateM.Result BuildError σ α → Option (List Name)
  | .error (.fragmentCycle path) _ => some path
  | _ => none

/-- A request for one of the fragments reports the cycle. -/
theorem cycle?_looping :
    cycle? (RunM.resolve "There" looping) = some ["There", "Back", "There"] := by
  decide +kernel

/-- The reported cycle is one, and the fragment cannot be built. -/
theorem looping_detected : looping.Live ∧ looping.registry.inProgress = ∅ ∧
    (∃ run', RunM.resolve "There" looping =
      .error (.fragmentCycle ["There", "Back", "There"]) run') ∧
    looping.registry.Cycle ["There", "Back", "There"] ∧
    ∀ f run', RunM.resolve "There" looping ≠ .ok f run' := by
  have herror : ∃ run', RunM.resolve "There" looping =
      .error (.fragmentCycle ["There", "Back", "There"]) run' := by
    have h := cycle?_looping
    unfold cycle? at h
    split at h
    · next path run' he =>
      cases h
      exact ⟨run', he⟩
    · cases h
  obtain ⟨run', he⟩ := herror
  obtain ⟨hdet, -, hnot⟩ := (looping_live.detects_cycles rfl).1 "There"
  obtain ⟨hcycle, hreached⟩ := hdet.reported _ run' he
  obtain ⟨m, hm, hloop⟩ := hcycle.transGen
  exact ⟨looping_live, rfl, ⟨run', he⟩, hcycle, hnot m (hreached m hm) hloop⟩

end Sample

end EntityGraph
