import EntityGraph.Proofs.Request.Kept
import EntityGraph.Proofs.Walk.Agreeing
import Mathlib.Data.List.Perm.Subperm

/-!
# Compiling without a registry

`compileAnew` compiles a fragment from the definitions alone: nothing is kept, and every spread is
compiled again. What it returns does not depend on how it was reached: not on the fragments that are
under construction, as long as none of them can be reached again, nor on the room for nested
compilations, as long as there is enough, and definitions that are added later do not matter either
(`compileAnew_unchanged`). This is the measure for what a registry answers.
-/

namespace EntityGraph

variable {schema : Schema}

/-! ## Definitions -/

/-- An answer that is known already. -/
def replay : Except BuildError (Compiled FragmentDefinition) → RunM schema Fragment
  | .ok c => pure { toCompiled := c, id := ⟨0, 0⟩ }
  | .error e => throw e

/-- A run that has seen nothing. -/
def Run.blank : Run schema := ⟨.fresh schema, .empty 0⟩

section
variable (schema : Schema) (definitions : Dict Name FragmentDefinition)

/-- What the fragment `name` is compiled to, where the fragments of `stack` are under construction
and at most `depth` more compilations can be nested. -/
def compileAnew : (depth : Nat) → (stack : OrderedSet Name) → (name : Name) →
    Except BuildError (Compiled FragmentDefinition)
  | 0, stack, name =>
    if name ∈ stack then .error (.fragmentCycle (stack.toList.dropWhile (· ≠ name) ++ [name]))
    else .error (.unknownFragment name)
  | depth + 1, stack, name =>
    if name ∈ stack then .error (.fragmentCycle (stack.toList.dropWhile (· ≠ name) ++ [name]))
    else
      match definitions.find? name with
      | some d =>
        outcome (compileFragment (fun m => replay (compileAnew depth (stack.insert name) m)) d
          (Run.blank : Run schema))
      | none => .error (.unknownFragment name)

end

/-- The fragment `name` is defined and spreads `other`. -/
def SpreadsIn (definitions : Dict Name FragmentDefinition) (name other : Name) : Prop :=
  ∃ d, definitions.find? name = some d ∧ other ∈ Selection.spreadsAll d.selections

variable {definitions definitions' : Dict Name FragmentDefinition} {depth depth' : Nat}
  {stack stack' : OrderedSet Name} {name : Name}

/-! ## Branches -/

/-- A fragment under construction is a cycle. -/
theorem compileAnew_of_mem (h : name ∈ stack) :
    compileAnew schema definitions depth stack name =
      .error (.fragmentCycle (stack.toList.dropWhile (· ≠ name) ++ [name])) := by
  cases depth <;> rw [compileAnew, if_pos h]

/-- A fragment that is not defined, or that has no room left. -/
theorem compileAnew_of_unknown (h : name ∉ stack)
    (hd : depth = 0 ∨ definitions.find? name = none) :
    compileAnew schema definitions depth stack name = .error (.unknownFragment name) := by
  cases depth with
  | zero => rw [compileAnew, if_neg h]
  | succ depth =>
    rw [compileAnew, if_neg h]
    simp only [hd.resolve_left nofun]

/-- A fragment that is defined. -/
theorem compileAnew_of_defined {d : FragmentDefinition} (h : name ∉ stack)
    (hd : definitions.find? name = some d) :
    compileAnew schema definitions (depth + 1) stack name =
      outcome (compileFragment
        (fun m => replay (compileAnew schema definitions depth (stack.insert name) m)) d
        (Run.blank : Run schema)) := by
  rw [compileAnew, if_neg h]
  simp only [hd]

/-- An answer that is known is returned. -/
theorem replay_eq_ok {r : Except BuildError (Compiled FragmentDefinition)} {run run' : Run schema}
    {f : Fragment} (h : replay r run = .ok f run') : r = .ok f.toCompiled := by
  cases r with
  | ok c => cases h; rfl
  | error e => cases h

/-- What was called for was returned. -/
theorem Calls.resolved {resolve : Name → RunM schema Fragment} {called : List (Name × Fragment)}
    {run run' : Run schema} (h : Calls resolve called run run') {c : Name × Fragment}
    (hc : c ∈ called) : ∃ r r', resolve c.1 r = .ok c.2 r' := by
  induction h with
  | done => cases hc
  | asked _ _ ih => exact ih hc
  | call hr _ ih =>
    rcases List.mem_cons.1 hc with rfl | hc
    · exact ⟨_, _, hr⟩
    · exact ih hc

/-- A fragment that compiles is defined and not under construction, and all that it spreads compiles
meanwhile. -/
theorem compileAnew_ok {c : Compiled FragmentDefinition}
    (h : compileAnew schema definitions depth stack name = .ok c) :
    ∃ depth' d run', depth = depth' + 1 ∧ name ∉ stack ∧ definitions.find? name = some d ∧
      compileFragment
        (fun m => replay (compileAnew schema definitions depth' (stack.insert name) m)) d
        (Run.blank : Run schema) = .ok c run' ∧
      ∀ m ∈ Selection.spreadsAll d.selections, ∃ c',
        compileAnew schema definitions depth' (stack.insert name) m = .ok c' := by
  by_cases hmem : name ∈ stack
  · rw [compileAnew_of_mem hmem] at h
    cases h
  cases hd : definitions.find? name with
  | none =>
    rw [compileAnew_of_unknown hmem (.inr hd)] at h
    cases h
  | some d =>
    cases depth with
    | zero =>
      rw [compileAnew_of_unknown hmem (.inl rfl)] at h
      cases h
    | succ depth =>
      rw [compileAnew_of_defined hmem hd] at h
      cases hc : compileFragment
          (fun m => replay (compileAnew schema definitions depth (stack.insert name) m)) d
          (Run.blank : Run schema) with
      | error e run' =>
        rw [hc] at h
        cases h
      | ok c' run' =>
        rw [hc] at h
        cases h
        refine ⟨depth, d, run', rfl, hmem, rfl, hc, ?_⟩
        intro m hm
        obtain ⟨called, run₁, hcalls, -, -, hvalid, -⟩ := compileFragment_ok hc
        obtain ⟨s, hs, hm⟩ := Selection.mem_spreadsAll.1 hm
        obtain ⟨f, hf⟩ := (hvalid s hs).spreads m hm
        obtain ⟨r, r', hr⟩ := hcalls.resolved hf
        exact ⟨f.toCompiled, replay_eq_ok hr⟩

/-! ## Independence -/

/-- A fragment that compiles reaches nothing that is under construction. -/
theorem compileAnew_disjoint {c : Compiled FragmentDefinition}
    (h : compileAnew schema definitions depth stack name = .ok c) {m : Name} (hm : m ∈ stack) :
    ¬ Relation.ReflTransGen (SpreadsIn definitions) name m := by
  induction depth generalizing stack name c with
  | zero =>
    obtain ⟨_, _, _, hdepth, -⟩ := compileAnew_ok h
    omega
  | succ depth ih =>
    obtain ⟨depth', d, run', hdepth, hname, hd, -, hspreads⟩ := compileAnew_ok h
    cases hdepth
    intro hreach
    rcases Relation.ReflTransGen.cases_head hreach with rfl | ⟨n, ⟨d', hd', hn⟩, hreach⟩
    · exact hname hm
    · rw [hd] at hd'
      cases hd'
      obtain ⟨c', hc'⟩ := hspreads n hn
      exact ih hc' (OrderedSet.mem_insert.2 (.inl hm)) hreach

/-- A name that is defined and not under construction leaves room for one more compilation. -/
theorem OrderedSet.size_lt_of_not_mem (hstack : ∀ n ∈ stack, n ∈ definitions.keys)
    (hname : name ∈ definitions.keys) (h : name ∉ stack) : stack.size < definitions.size := by
  have hnodup : (stack.toList ++ [name]).Nodup := by
    have hinsert := (stack.insert name).nodup
    rwa [OrderedSet.toList_insert, if_neg h] at hinsert
  have hsub : stack.toList ++ [name] ⊆ definitions.keys := by
    intro n hn
    rcases List.mem_append.1 hn with hn | hn
    · exact hstack n hn
    · rw [List.mem_singleton.1 hn]
      exact hname
  have hle := (List.subperm_of_subset hnodup hsub).length_le
  rw [List.length_append, Dict.length_keys] at hle
  exact hle

/-- A stack with one more defined name. -/
theorem OrderedSet.insert_defined (hstack : ∀ n ∈ stack, n ∈ definitions.keys)
    (hname : name ∈ definitions.keys) : ∀ n ∈ stack.insert name, n ∈ definitions.keys := by
  intro n hn
  rcases OrderedSet.mem_insert.1 hn with hn | rfl
  · exact hstack n hn
  · exact hname

/-- The size of a stack with one more name. -/
theorem OrderedSet.size_insert (h : name ∉ stack) :
    (stack.insert name).size = stack.size + 1 := by
  show (stack.insert name).toList.length = _
  rw [OrderedSet.toList_insert, if_neg h, List.length_append]
  rfl

/-- A fragment that compiles does so to the same content with more definitions, with other fragments
under construction that it does not reach, and with any room that suffices. -/
theorem compileAnew_unchanged {c : Compiled FragmentDefinition}
    (h : compileAnew schema definitions depth stack name = .ok c)
    (hsub : ∀ n d, definitions.find? n = some d → definitions'.find? n = some d)
    (hstack : ∀ n ∈ stack', n ∈ definitions'.keys)
    (hdisjoint : ∀ m ∈ stack', ¬ Relation.ReflTransGen (SpreadsIn definitions) name m)
    (hdepth : definitions'.size ≤ depth' + stack'.size) :
    ∃ c', compileAnew schema definitions' depth' stack' name = .ok c' ∧ c.content = c'.content := by
  induction depth generalizing stack stack' depth' name c with
  | zero =>
    obtain ⟨_, _, _, hdepth, -⟩ := compileAnew_ok h
    omega
  | succ depth ih =>
    obtain ⟨_, d, run', hd₀, hname, hd, hc, hspreads⟩ := compileAnew_ok h
    cases hd₀
    have hname' : name ∉ stack' := fun hmem => hdisjoint name hmem .refl
    have hd' : definitions'.find? name = some d := hsub name d hd
    have hkey : name ∈ definitions'.keys := Dict.mem_keys_iff.2 ⟨d, hd'⟩
    have hroom := OrderedSet.size_lt_of_not_mem hstack hkey hname'
    obtain ⟨depth', rfl⟩ : ∃ k, depth' = k + 1 := ⟨depth' - 1, by omega⟩
    -- each spread is answered alike: `name` is under construction now, but it is out of reach
    have hr : ∀ m ∈ Selection.spreadsAll d.selections, RunM.Agrees False (fun _ => True)
        (replay (compileAnew schema definitions depth (stack.insert name) m) : RunM schema Fragment)
        (replay (compileAnew schema definitions' depth' (stack'.insert name) m))
        Fragment.Alike := by
      intro m hm
      have hedge : SpreadsIn definitions name m := ⟨d, hd, hm⟩
      obtain ⟨cm, hcm⟩ := hspreads m hm
      have hstack' := OrderedSet.insert_defined hstack hkey
      have hout : ∀ n ∈ stack'.insert name,
          ¬ Relation.ReflTransGen (SpreadsIn definitions) m n := by
        intro n hn hreach
        rcases OrderedSet.mem_insert.1 hn with hn | rfl
        · exact hdisjoint n hn (hreach.head hedge)
        · exact compileAnew_disjoint hcm (OrderedSet.mem_insert.2 (.inr rfl)) hreach
      have henough : definitions'.size ≤ depth' + (stack'.insert name).size := by
        rw [OrderedSet.size_insert hname']
        omega
      obtain ⟨cm', hcm', hcontent⟩ := ih hcm hstack' hout henough
      rw [hcm, hcm']
      exact .pure hcontent
    have hquiet : Run.Quiet (fun _ : Run schema => True) := fun _ _ _ _ => trivial
    have hagrees := compileFragment_agrees hquiet hr .blank .blank trivial
    rw [hc] at hagrees
    obtain ⟨-, c', run'', hc', hcontent⟩ := hagrees
    refine ⟨c', ?_, hcontent⟩
    rw [compileAnew_of_defined hname' hd', hc']
    rfl

/-- A fragment that compiles does so with nothing under construction. -/
theorem compileAnew_alone {c : Compiled FragmentDefinition}
    (h : compileAnew schema definitions depth stack name = .ok c)
    (hsub : ∀ n d, definitions.find? n = some d → definitions'.find? n = some d) :
    ∃ c', compileAnew schema definitions' definitions'.size ∅ name = .ok c' ∧
      c.content = c'.content := by
  refine compileAnew_unchanged h hsub ?_ ?_ (Nat.le_add_right _ _)
  · intro n hn
    cases hn
  · intro n hn
    cases hn

end EntityGraph
