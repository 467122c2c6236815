import EntityGraph.Build.Resolve
import EntityGraph.Proofs.Document.Valid

/-!
# What a walk asks of the registry

Apart from the schema, a walk over selections depends on the state of its run in one way only: it
resolves names. `Calls` lists the names that were resolved between two states of a run, with the
fragments that were returned, and nothing else happens to the run in between but questions. A walk
that succeeds makes such calls, and its selections are valid with respect to them; a walk that fails
does so after such calls, either on its own or because the call for one of its spreads fails
(`Stops`). Whatever a single call keeps of the registry, a walk keeps. Main statements:
`validateWithin_walks`, `visitWithin_walks`, and from them `compileFragment_ok`,
`compileFragment_error` and `compileOperation_walks`.
-/

namespace EntityGraph

open LookupM (Gives Steady)

variable {schema : Schema} {α β : Type}

/-! ## Failures of a schema's own -/

/-- Whatever the work fails with is of the kind `bad`. -/
def LookupM.Fails (bad : BuildError → Prop) (q : LookupM schema BuildError α) : Prop :=
  ∀ s e s', q s = .error e s' → bad e

namespace LookupM.Fails

variable {bad : BuildError → Prop}

/-- A value that is returned. -/
theorem pure (a : α) : Fails bad (Pure.pure a : LookupM schema BuildError α) := by
  intro s e s' he
  cases he

/-- A failure of the kind. -/
theorem throw {e : BuildError} (h : bad e) :
    Fails bad (MonadExcept.throw e : LookupM schema BuildError α) := by
  intro s e' s' he
  cases he
  exact h

/-- A sequence. -/
theorem bind {q : LookupM schema BuildError α} {f : α → LookupM schema BuildError β}
    (hq : Fails bad q) (hf : ∀ a, Fails bad (f a)) : Fails bad (q >>= f) := by
  intro s e s' h
  rcases error_of_bind h with h | ⟨a, s₁, -, h⟩
  · exact hq s e s' h
  · exact hf a s₁ e s' h

/-- A loop of checks. -/
theorem forM {f : α → LookupM schema BuildError PUnit} (h : ∀ a, Fails bad (f a)) :
    ∀ {l : List α}, Fails bad (l.forM f)
  | [] => .pure _
  | _ :: _ => .bind (h _) fun _ => forM h

/-- A question. -/
theorem asked (hlookup : ∀ e, bad (.ofLookup e)) (q : LookupM schema LookupError α) :
    Fails bad q.asked := by
  intro s e s' h
  unfold LookupM.asked at h
  split at h
  · cases h
  · cases h
    exact hlookup _

end LookupM.Fails

/-- Merging a field fails because of a conflict, or because the schema cannot answer. -/
theorem Entity.mergeField_fails {bad : BuildError → Prop} (hlookup : ∀ e, bad (.ofLookup e))
    (hconflict : ∀ location key existing conflicting,
      bad (.mergeConflict location key existing conflicting)) (e : Entity) (f : EntityField) :
    LookupM.Fails bad (e.mergeField f : LookupM schema BuildError Entity) := by
  refine .bind (.forM fun existing => ?_) fun _ => ?_
  · unfold Entity.checkPair
    split
    · exact .pure _
    · refine .forM fun old => .forM fun new => .bind (.asked hlookup _) fun overlap => ?_
      split
      · exact .throw (hconflict ..)
      · exact .pure _
  · dsimp only
    split <;> exact .bind (.asked hlookup _) fun _ => .bind (.pure _) fun _ => .pure _

/-- The failure is not about a cycle of fragments. -/
def BuildError.Plain (e : BuildError) : Prop := ∀ path, e ≠ .fragmentCycle path

/-- What the schema cannot answer has nothing to do with cycles. -/
theorem BuildError.plain_ofLookup (e : LookupError) : (BuildError.ofLookup e).Plain := by
  cases e <;> exact nofun

/-- The work never fails because of a cycle. -/
def LookupM.Plain (q : LookupM schema BuildError α) : Prop :=
  ∀ s e s', q s = .error e s' → e.Plain

/-- Merging a field does not fail because of a cycle. -/
theorem Entity.mergeField_plain (e : Entity) (f : EntityField) :
    LookupM.Plain (e.mergeField f : LookupM schema BuildError Entity) :=
  e.mergeField_fails BuildError.plain_ofLookup (fun _ _ _ _ => nofun) f

/-! ## Calls -/

section
variable (resolve : Name → RunM schema Fragment)

/-- Between the two states of a run, names were resolved to fragments, in the order of the list, and
questions were asked. -/
inductive Calls : List (Name × Fragment) → Run schema → Run schema → Prop
  | done {run : Run schema} : Calls [] run run
  | asked {called : List (Name × Fragment)} {run run' : Run schema} {lookups : Lookups schema} :
      (∀ name, timesBuilt lookups.log name = timesBuilt run.lookups.log name) →
      Calls called { run with lookups } run' → Calls called run run'
  | call {called : List (Name × Fragment)} {name : Name} {f : Fragment}
      {run run₁ run' : Run schema} :
      resolve name run = .ok f run₁ → Calls called run₁ run' → Calls ((name, f) :: called) run run'

/-- Work on the run failed with `e`: on its own, or in a call for one of the names in `Spread`. -/
def Stops (Spread : Name → Prop) (e : BuildError) (run run' : Run schema) : Prop :=
  (e.Plain ∧ ∃ called, Calls resolve called run run') ∨
    ∃ called run₁ name, Calls resolve called run run₁ ∧ Spread name ∧
      resolve name run₁ = .error e run'

/-- The work does nothing to a run but calls, for names in `Spread` when it fails. What it returns,
and what was called, satisfies `post`. -/
def RunM.Walks (Spread : Name → Prop) (work : RunM schema α)
    (post : α → List (Name × Fragment) → Prop) : Prop :=
  ∀ run, match work run with
    | .ok a run' => ∃ called, Calls resolve called run run' ∧ post a called
    | .error e run' => Stops resolve Spread e run run'

end

/-- A call for the name was answered. -/
def Answered (called : List (Name × Fragment)) (name : Name) : Prop := ∃ f, (name, f) ∈ called

/-- The fragments that a unit references are those that it referenced before, and those that calls
returned with what they reference themselves. -/
def Refers (called : List (Name × Fragment)) (w w' : Workpiece) : Prop :=
  ∀ use ∈ w'.referenced.entries, use ∈ w.referenced.entries ∨
    ∃ c ∈ called, use ∈ (c.2.name, c.2.id) :: c.2.referenced.entries

/-- The same of work on a unit, which references only what was called. -/
def UnitM.Walks (resolve : Name → RunM schema Fragment) (Spread : Name → Prop)
    (work : UnitM schema α) (post : α → List (Name × Fragment) → Prop) : Prop :=
  ∀ w, RunM.Walks resolve Spread (work w) fun p called => post p.1 called ∧ Refers called w p.2

variable {resolve : Name → RunM schema Fragment} {Spread : Name → Prop}
  {called called' : List (Name × Fragment)} {run run₁ run' : Run schema} {w w₁ w' : Workpiece}

/-- Calls follow one another. -/
theorem Calls.append (h : Calls resolve called run run₁) (h' : Calls resolve called' run₁ run') :
    Calls resolve (called ++ called') run run' := by
  induction h with
  | done => exact h'
  | asked hq _ ih => exact .asked hq (ih h')
  | call hc _ ih => exact .call hc (ih h')

/-- Calls may come before a failure. -/
theorem Stops.after_calls {e : BuildError} (h : Calls resolve called run run₁)
    (h' : Stops resolve Spread e run₁ run') : Stops resolve Spread e run run' := by
  rcases h' with ⟨he, called', h'⟩ | ⟨called', run₂, name, h', hs, hf⟩
  · exact .inl ⟨he, _, h.append h'⟩
  · exact .inr ⟨_, run₂, name, h.append h', hs, hf⟩

/-- What was answered stays so when more is called. -/
theorem Answered.mono {name : Name} (h : Answered called name)
    (hsub : ∀ c ∈ called, c ∈ called') : Answered called' name :=
  h.imp fun _ hf => hsub _ hf

/-- Nothing is referenced that was not referenced before. -/
theorem Refers.refl (w : Workpiece) : Refers called w w := fun _ h => .inl h

/-- References are added one after the other. -/
theorem Refers.trans (h : Refers called w w₁) (h' : Refers called' w₁ w') :
    Refers (called ++ called') w w' := by
  intro use hu
  rcases h' use hu with hu | ⟨c, hc, hu⟩
  · rcases h use hu with hu | ⟨c, hc, hu⟩
    · exact .inl hu
    · exact .inr ⟨c, List.mem_append_left _ hc, hu⟩
  · exact .inr ⟨c, List.mem_append_right _ hc, hu⟩

/-- Noting a fragment references it, and what it references itself. -/
theorem Refers.refer {name : Name} {fragment : Fragment} :
    Refers [(name, fragment)] w (w.refer fragment) := by
  have hfold : ∀ (l : List (Name × FragmentId)) (known : Dict Name FragmentId),
      ∀ use ∈ (l.foldl (fun known use =>
        if known.contains use.1 then known else known.insert use.1 use.2) known).entries,
        use ∈ known.entries ∨ use ∈ l := by
    intro l
    induction l with
    | nil => exact fun _ _ h => .inl h
    | cons e l ih =>
      intro known use hu
      rcases ih _ use hu with hu | hu
      · dsimp only at hu
        split at hu
        · exact .inl hu
        · have hf := Dict.find?_eq_some_iff.2 hu
          rw [Dict.find?_insert] at hf
          split at hf
          · next hk =>
            rw [show use = e from Prod.ext hk (Option.some.inj hf).symm]
            exact .inr (.head _)
          · exact .inl (Dict.find?_eq_some_iff.1 hf)
      · exact .inr (List.mem_cons_of_mem _ hu)
  intro use hu
  exact (hfold _ _ use hu).imp_right fun hu => ⟨_, .head _, hu⟩

/-! ## Work of a run -/

namespace RunM.Walks

/-- A value that is returned. -/
theorem pure {a : α} {post : α → List (Name × Fragment) → Prop} (h : post a []) :
    Walks resolve Spread (Pure.pure a : RunM schema α) post := fun _ => ⟨[], .done, h⟩

/-- A failure of the work's own. -/
theorem throw {e : BuildError} {post : α → List (Name × Fragment) → Prop} (h : e.Plain) :
    Walks resolve Spread (MonadExcept.throw e : RunM schema α) post :=
  fun _ => .inl ⟨h, [], .done⟩

/-- What is returned and called may be described by less. -/
theorem mono {work : RunM schema α} {post post' : α → List (Name × Fragment) → Prop}
    (h : Walks resolve Spread work post) (himp : ∀ a called, post a called → post' a called) :
    Walks resolve Spread work post' := by
  intro run
  have h := h run
  split at h
  · obtain ⟨called, hc, hp⟩ := h
    exact ⟨called, hc, himp _ _ hp⟩
  · exact h

/-- Work that succeeded made calls. -/
theorem of_ok {work : RunM schema α} {post : α → List (Name × Fragment) → Prop}
    (h : Walks resolve Spread work post) {a : α} (hw : work run = .ok a run') :
    ∃ called, Calls resolve called run run' ∧ post a called := by
  have h := h run
  rw [hw] at h
  exact h

/-- Work that failed did so on its own or in a call. -/
theorem of_error {work : RunM schema α} {post : α → List (Name × Fragment) → Prop}
    (h : Walks resolve Spread work post) {e : BuildError} (hw : work run = .error e run') :
    Stops resolve Spread e run run' := by
  have h := h run
  rw [hw] at h
  exact h

/-- A sequence of two pieces of work. -/
theorem bind {work : RunM schema α} {next : α → RunM schema β}
    {mid : α → List (Name × Fragment) → Prop} {post : β → List (Name × Fragment) → Prop}
    (h₁ : Walks resolve Spread work mid)
    (h₂ : ∀ a called, mid a called →
      Walks resolve Spread (next a) fun b called' => post b (called ++ called')) :
    Walks resolve Spread (work >>= next) post := by
  intro run
  have h := h₁ run
  split at h
  · next a run₁ hw =>
    rw [bind_of_ok hw]
    obtain ⟨called, hc, hm⟩ := h
    have h' := h₂ a called hm run₁
    split at h'
    · obtain ⟨called', hc', hp⟩ := h'
      exact ⟨_, hc.append hc', hp⟩
    · exact .after_calls hc h'
  · next e run₁ hw =>
    rw [bind_of_error hw]
    exact h

/-- Work that needs the schema only. -/
theorem ofLookup {q : LookupM schema BuildError α} (hs : Steady q) (hp : LookupM.Plain q) :
    Walks resolve Spread (RunM.ofLookup q) fun a _ => Gives q a := by
  intro run
  have hquiet := hs.quiet run.lookups
  unfold RunM.ofLookup
  cases hq : q run.lookups with
  | ok a lookups =>
    rw [hq] at hquiet
    exact ⟨[], .asked hquiet .done, _, _, hq⟩
  | error e lookups =>
    rw [hq] at hquiet
    exact .inl ⟨hp _ _ _ hq, [], .asked hquiet .done⟩

/-- A question. -/
theorem ask {q : LookupM schema LookupError α} (hs : Steady q) :
    Walks resolve Spread (RunM.ask q) fun a _ => Gives q a :=
  (ofLookup hs.asked (LookupM.Fails.asked BuildError.plain_ofLookup q)).mono fun _ _ h => h.of_asked

/-- A report of something else than a built fragment. -/
theorem report {event : Event} (h : ∀ name, event.builds name = false) :
    Walks resolve Spread (RunM.report event) fun _ _ => True :=
  (ofLookup (LookupM.report_steady h) nofun).mono fun _ _ _ => trivial

/-- A call for one of the names. -/
theorem call {name : Name} (h : Spread name) :
    Walks resolve Spread (resolve name) fun f called => called = [(name, f)] := by
  intro run
  cases hr : resolve name run with
  | ok f run' => exact ⟨_, .call hr .done, rfl⟩
  | error e run' => exact .inr ⟨[], run, name, .done, h, hr⟩

/-- A loop, where what holds after a step holds after further calls. -/
theorem forM {f : α → RunM schema Unit} {P : α → List (Name × Fragment) → Prop}
    (hP : ∀ a {called called'}, P a called → (∀ c ∈ called, c ∈ called') → P a called') :
    ∀ {l : List α}, (∀ a ∈ l, Walks resolve Spread (f a) fun _ called => P a called) →
      Walks resolve Spread (l.forM f) fun _ called => ∀ a ∈ l, P a called
  | [], _ => .pure (by simp)
  | a :: l, h =>
    .bind (h a (.head _)) fun _ _ ha =>
      (forM hP fun b hb => h b (List.mem_cons_of_mem _ hb)).mono fun _ _ hl =>
        List.forall_mem_cons.2 ⟨hP a ha fun _ => List.mem_append_left _,
          fun b hb => hP b (hl b hb) fun _ => List.mem_append_right _⟩

end RunM.Walks

/-! ## Work on a unit -/

namespace UnitM.Walks

/-- A value that is returned. -/
theorem pure {a : α} {post : α → List (Name × Fragment) → Prop} (h : post a []) :
    Walks resolve Spread (Pure.pure a : UnitM schema α) post := fun w => .pure ⟨h, .refl w⟩

/-- What is returned and called may be described by less. -/
theorem mono {work : UnitM schema α} {post post' : α → List (Name × Fragment) → Prop}
    (h : Walks resolve Spread work post) (himp : ∀ a called, post a called → post' a called) :
    Walks resolve Spread work post' :=
  fun w => (h w).mono fun _ _ hp => ⟨himp _ _ hp.1, hp.2⟩

/-- A sequence of two pieces of work. -/
theorem bind {work : UnitM schema α} {next : α → UnitM schema β}
    {mid : α → List (Name × Fragment) → Prop} {post : β → List (Name × Fragment) → Prop}
    (h₁ : Walks resolve Spread work mid)
    (h₂ : ∀ a called, mid a called →
      Walks resolve Spread (next a) fun b called' => post b (called ++ called')) :
    Walks resolve Spread (work >>= next) post :=
  fun w => .bind (h₁ w) fun p called hp =>
    (h₂ p.1 called hp.1 p.2).mono fun _ _ hq => ⟨hq.1, hp.2.trans hq.2⟩

/-- Work of the run leaves the unit alone. -/
theorem ofRun {work : RunM schema α} {post : α → List (Name × Fragment) → Prop}
    (h : RunM.Walks resolve Spread work post) :
    Walks resolve Spread (UnitM.ofRun work) post :=
  fun w => .bind h fun _ called ha => .pure ⟨by simpa using ha, .refl w⟩

/-- A question. -/
theorem ask {q : LookupM schema LookupError α} (hs : Steady q) :
    Walks resolve Spread (UnitM.ask q) fun a _ => Gives q a := .ofRun (.ask hs)

/-- The unit is looked at. -/
theorem get : Walks resolve Spread (get : UnitM schema Workpiece) fun _ _ => True :=
  fun w => RunM.Walks.pure (a := (w, w)) ⟨trivial, .refl w⟩

/-- The unit is changed, but not what it references. -/
theorem modify {f : Workpiece → Workpiece} (h : ∀ w, (f w).referenced = w.referenced) :
    Walks resolve Spread (modify f : UnitM schema PUnit) fun _ _ => True :=
  fun w => RunM.Walks.pure (a := (_, f w)) ⟨trivial, fun _ hu => .inl (h w ▸ hu)⟩

/-- A loop, where what holds after a step holds after further calls. -/
theorem forM {f : α → UnitM schema Unit} {P : α → List (Name × Fragment) → Prop}
    (hP : ∀ a {called called'}, P a called → (∀ c ∈ called, c ∈ called') → P a called') :
    ∀ {l : List α}, (∀ a ∈ l, Walks resolve Spread (f a) fun _ called => P a called) →
      Walks resolve Spread (l.forM f) fun _ called => ∀ a ∈ l, P a called
  | [], _ => .pure (by simp)
  | a :: l, h =>
    .bind (h a (.head _)) fun _ _ ha =>
      (forM hP fun b hb => h b (List.mem_cons_of_mem _ hb)).mono fun _ _ hl =>
        List.forall_mem_cons.2 ⟨hP a ha fun _ => List.mem_append_left _,
          fun b hb => hP b (hl b hb) fun _ => List.mem_append_right _⟩

end UnitM.Walks

/-! ## Walks -/

/-- The entity at a location is found or created. -/
theorem entityAt_walks {l : Location} :
    UnitM.Walks resolve Spread (UnitM.entityAt l) fun _ _ => True := by
  refine UnitM.Walks.get.bind fun w _ _ => ?_
  split
  · exact .pure trivial
  · exact (UnitM.Walks.ofRun (.report fun _ => rfl)).bind fun _ _ _ =>
      (UnitM.Walks.modify (by intro; rfl)).bind fun _ _ _ => .pure trivial

/-- A field is merged. -/
theorem mergeAt_walks {l : Location} {f : EntityField} :
    UnitM.Walks resolve Spread (UnitM.mergeAt l f) fun _ _ => True :=
  entityAt_walks.bind fun e _ _ =>
    (UnitM.Walks.ofRun (.ofLookup (e.mergeField_steady f) (e.mergeField_plain f))).bind
      fun _ _ _ => UnitM.Walks.modify (by intro; rfl)

/-- The declared type of a field is looked up. -/
theorem fieldType_walks {name c : Name} {place : SourceLocation} :
    RunM.Walks resolve Spread (RunM.fieldType name place c) fun declared _ =>
      schema.fieldType? c name = some declared := by
  unfold RunM.fieldType Schema.fieldType?
  split
  · exact .pure rfl
  · refine (RunM.Walks.ask (LookupM.type_steady c)).bind fun type _ ht => ?_
    have ht := LookupM.type_gives ht
    split
    · next field hf => exact .pure (by simp [ht, hf])
    · exact .throw nofun

/-- Nothing is selected on a type without fields. -/
theorem checkLeaf_walks {type : NamedType} {selections : List Selection} :
    RunM.Walks resolve Spread (RunM.checkLeaf type selections) fun _ _ => selections = [] := by
  unfold RunM.checkLeaf
  split
  · next h => exact .pure (List.isEmpty_iff.1 h)
  · exact .throw nofun

/-- A field is copied or left out. -/
theorem copyField_walks {nested : (target source : Location) → Name → UnitM schema Unit}
    (hn : ∀ target source c, UnitM.Walks resolve Spread (nested target source c) fun _ _ => True)
    {target : Location} {c : Name} {f : EntityField} :
    UnitM.Walks resolve Spread (copyField nested target c f) fun _ _ => True := by
  refine (UnitM.Walks.ask (narrowConditions_steady ..)).bind fun cs _ _ => ?_
  split
  · exact .pure trivial
  · cases f.child with
    | some source => exact (hn _ _ _).bind fun _ _ _ => mergeAt_walks
    | none => exact mergeAt_walks

/-- A fragment is copied. -/
theorem copyWithin_walks {fragment : Fragment} {depth : Nat} {target source : Location}
    {c : Name} :
    UnitM.Walks resolve Spread (copyWithin fragment depth target source c) fun _ _ => True := by
  induction depth generalizing target source c with
  | zero => exact .pure trivial
  | succ depth ih =>
    unfold copyWithin
    split
    · exact .pure trivial
    · refine entityAt_walks.bind fun _ _ _ =>
        (UnitM.Walks.modify (by intro; rfl)).bind fun _ _ _ => ?_
      refine (UnitM.Walks.forM (P := fun _ _ => True) (fun _ _ _ _ _ => trivial) fun f _ => ?_).mono
        fun _ _ _ => trivial
      exact copyField_walks fun _ _ _ => ih

/-- What is valid with respect to some calls is valid with respect to more of them. -/
theorem NormalSelection.Valid.of_called {s : NormalSelection}
    (h : s.Valid schema (Answered called)) (hsub : ∀ c ∈ called, c ∈ called') :
    s.Valid schema (Answered called') :=
  h.mono fun _ _ h => h.mono hsub

/-- Selections are checked: they are valid with respect to the calls for their spreads. -/
theorem validateWithin_walks {height : Nat} {c : Name} {selections : List Selection}
    (hheight : Selection.heightAll selections ≤ height)
    (hs : ∀ name ∈ Selection.spreadsAll selections, Spread name) :
    RunM.Walks resolve Spread (validateWithin resolve height c selections) fun _ called =>
      ∀ s ∈ selections, s.Valid schema (Answered called) c := by
  induction height generalizing c selections with
  | zero =>
    cases Selection.eq_nil_of_heightAll (Nat.le_zero.1 hheight)
    exact .pure (by simp)
  | succ height ih =>
    refine (RunM.Walks.ask (Selection.normalizeAll_steady c selections)).bind fun normal _ hn => ?_
    refine (RunM.Walks.forM (P := fun s called => s.Valid schema (Answered called))
      (fun _ _ _ => .of_called) fun s hmem => ?_).mono fun _ called h =>
        (Selection.normalizeAll_valid_iff selections hn).1 fun s hs =>
          (h s hs).of_called fun _ => List.mem_append_right _
    have hpart := Selection.normalizeAll_parts selections hn s hmem
    have hlower : Selection.heightAll s.selections ≤ height := by
      have := hpart.lower
      omega
    cases s with
    | field aliasName name place inner c =>
      refine fieldType_walks.bind fun declared _ hd => ?_
      refine (RunM.Walks.ask (LookupM.type_steady _)).bind fun type _ ht => ?_
      have ht := LookupM.type_gives ht
      split
      · next hc =>
        refine (ih hlower fun name hn => hs name (hpart.spreads name hn)).mono fun _ called h => ?_
        refine ⟨declared, type, hd, ht, ?_⟩
        rw [if_pos hc]
        exact fun s hs => (h s hs).mono fun _ _ h => h.mono (by simp +contextual)
      · next hc =>
        refine checkLeaf_walks.mono fun _ called h => ⟨declared, type, hd, ht, ?_⟩
        rwa [if_neg hc]
    | spread name place c =>
      refine (RunM.Walks.call (hs name (hpart.spreads name (.head _)))).bind fun f called hf => ?_
      exact .pure ⟨f, by simp [hf]⟩
    | unreachable place inner own =>
      exact ih hlower fun name hn => hs name (hpart.spreads name hn)

/-- A spread is entered: the fragment is called for, referenced and copied. -/
theorem visitSpread_walks {location : Location} {name c : Name} (hs : Spread name) :
    UnitM.Walks resolve Spread (visitSpread resolve location name c) fun _ called =>
      Answered called name := by
  have hcopy (fragment : Fragment) : UnitM.Walks resolve Spread (do
      let cs ← UnitM.ask (LookupM.intersect c fragment.definition.condition)
      cs.forM (copyFragment fragment location)) fun _ _ => True := by
    refine (UnitM.Walks.ask (LookupM.intersect_steady ..)).bind fun cs _ _ => ?_
    exact (UnitM.Walks.forM (P := fun _ _ => True) (fun _ _ _ _ _ => trivial) fun _ _ =>
      copyWithin_walks).mono fun _ _ _ => trivial
  intro w
  -- the unit references what the call before returned, so both steps are taken together
  have hcall : RunM.Walks resolve Spread (UnitM.ofRun (resolve name) w) fun p called =>
      called = [(name, p.1)] ∧ p.2 = w :=
    .bind (.call hs) fun f called hf => .pure ⟨by simpa using hf, rfl⟩
  refine hcall.bind ?_
  rintro ⟨fragment, w₁⟩ called ⟨rfl, rfl⟩
  exact (hcopy fragment (w₁.refer fragment)).mono fun _ called' h =>
    ⟨⟨fragment, .head _⟩, Refers.refer.trans h.2⟩

/-- Selections are entered: they are valid with respect to the calls for their spreads. -/
theorem visitWithin_walks {height : Nat} {location : Location} {c : Name}
    {selections : List Selection} (hheight : Selection.heightAll selections ≤ height)
    (hs : ∀ name ∈ Selection.spreadsAll selections, Spread name) :
    UnitM.Walks resolve Spread (visitWithin resolve height location c selections) fun _ called =>
      ∀ s ∈ selections, s.Valid schema (Answered called) c := by
  induction height generalizing location c selections with
  | zero =>
    cases Selection.eq_nil_of_heightAll (Nat.le_zero.1 hheight)
    exact entityAt_walks.bind fun _ _ _ => .pure (by simp)
  | succ height ih =>
    refine entityAt_walks.bind fun _ _ _ => ?_
    refine (UnitM.Walks.ask (Selection.normalizeAll_steady c selections)).bind fun normal _ hn => ?_
    refine (UnitM.Walks.forM (P := fun s called => s.Valid schema (Answered called))
      (fun _ _ _ => .of_called) fun s hmem => ?_).mono fun _ called h =>
        (Selection.normalizeAll_valid_iff selections hn).1 fun s hs =>
          (h s hs).of_called (by simp +contextual)
    have hpart := Selection.normalizeAll_parts selections hn s hmem
    have hlower : Selection.heightAll s.selections ≤ height := by
      have := hpart.lower
      omega
    have hspreads : ∀ name ∈ s.spreads, Spread name :=
      fun name hn => hs name (hpart.spreads name hn)
    cases s with
    | field aliasName name place inner c =>
      refine (UnitM.Walks.ofRun fieldType_walks).bind fun declared _ hd => ?_
      refine (UnitM.Walks.ask (LookupM.type_steady _)).bind fun type _ ht => ?_
      have ht := LookupM.type_gives ht
      split
      · next hc =>
        refine (ih hlower hspreads).bind fun _ called h => mergeAt_walks.mono fun _ called' _ => ?_
        refine ⟨declared, type, hd, ht, ?_⟩
        rw [if_pos hc]
        exact fun s hs => (h s hs).mono fun _ _ h => h.mono (by simp +contextual)
      · next hc =>
        refine (UnitM.Walks.ofRun checkLeaf_walks).bind fun _ called h => ?_
        refine mergeAt_walks.mono fun _ called' _ => ⟨declared, type, hd, ht, ?_⟩
        rwa [if_neg hc]
    | spread name place c =>
      exact (visitSpread_walks (hspreads name (.head _))).mono fun _ called h =>
        h.mono (by simp +contextual)
    | unreachable place inner own =>
      exact .ofRun (validateWithin_walks (Nat.le_refl _) hspreads)

/-! ## Definitions -/

/-- The walk over the selections of a definition. -/
theorem visit_walks {root : Location} {c : Name} {selections : List Selection} :
    RunM.Walks resolve (· ∈ Selection.spreadsAll selections)
      ((visit resolve root c selections).run .empty) fun p called =>
        (∀ s ∈ selections, s.Valid schema (Answered called) c) ∧ Refers called .empty p.2 :=
  visitWithin_walks (Nat.le_refl _) (fun _ h => h) .empty

/-- A question that was answered makes no calls. -/
theorem ask_calls (resolve : Name → RunM schema Fragment) {q : LookupM schema LookupError α}
    (hs : Steady q) {a : α} (h : RunM.ask q run = .ok a run') :
    ∃ called, Calls resolve called run run' := by
  have hw : RunM.Walks resolve (fun _ => True) (RunM.ask q) fun a _ => Gives q a := .ask hs
  obtain ⟨called, hc, -⟩ := hw.of_ok h
  exact ⟨called, hc⟩

/-- A report makes no calls. -/
theorem report_calls (resolve : Name → RunM schema Fragment) {event : Event}
    (he : ∀ name, event.builds name = false) {u : Unit} (h : RunM.report event run = .ok u run') :
    ∃ called, Calls resolve called run run' := by
  have hw : RunM.Walks resolve (fun _ => True) (RunM.report event) fun _ _ => True := .report he
  obtain ⟨called, hc, -⟩ := hw.of_ok h
  exact ⟨called, hc⟩

/-- A fragment definition that compiles makes the calls for its spreads, and is then reported as
built. -/
theorem compileFragment_ok {d : FragmentDefinition} {c : Compiled FragmentDefinition}
    (h : compileFragment resolve d run = .ok c run') :
    ∃ called run₁, Calls resolve called run run₁ ∧
      run' = { run₁ with
        lookups.log := .builtFragment d.name c.entities.size :: run₁.lookups.log } ∧
      c.definition = d ∧ (∀ s ∈ d.selections, s.Valid schema (Answered called) d.condition) ∧
      Refers called .empty ⟨c.entities, c.referenced⟩ := by
  obtain ⟨_, r₁, h₁, h⟩ := ok_of_bind h
  obtain ⟨type, r₂, h₂, h⟩ := ok_of_bind h
  split at h
  · obtain ⟨⟨_, work⟩, r₃, h₃, h⟩ := ok_of_bind h
    obtain ⟨_, r₄, h₄, h⟩ := ok_of_bind h
    obtain ⟨called₁, hc₁⟩ := report_calls resolve (fun _ => rfl) h₁
    obtain ⟨called₂, hc₂⟩ := ask_calls resolve (LookupM.type_steady d.condition) h₂
    obtain ⟨called₃, hc₃, hvalid, hrefers⟩ := visit_walks.of_ok h₃
    cases h
    cases h₄
    refine ⟨_, r₃, hc₁.append (hc₂.append hc₃), rfl, rfl, fun s hs => ?_, fun use hu => ?_⟩
    · exact (hvalid s hs).mono fun _ _ h => h.mono (by simp +contextual)
    · exact (hrefers use hu).imp_right fun ⟨c, hc, hu⟩ => ⟨c, by simp [hc], hu⟩
  · cases h

/-- A fragment definition that does not compile fails on its own, or in a call for one of its
spreads. -/
theorem compileFragment_error {d : FragmentDefinition} {e : BuildError}
    (h : compileFragment resolve d run = .error e run') :
    Stops resolve (· ∈ Selection.spreadsAll d.selections) e run run' := by
  rcases error_of_bind h with h | ⟨_, r₁, h₁, h⟩
  · cases h
  obtain ⟨called₁, hc₁⟩ := report_calls resolve (fun _ => rfl) h₁
  refine .after_calls hc₁ ?_
  rcases error_of_bind h with h | ⟨type, r₂, h₂, h⟩
  · exact (RunM.Walks.ask (LookupM.type_steady d.condition)).of_error h
  obtain ⟨called₂, hc₂⟩ := ask_calls resolve (LookupM.type_steady d.condition) h₂
  refine .after_calls hc₂ ?_
  split at h
  · rcases error_of_bind h with h | ⟨p, r₃, h₃, h⟩
    · exact visit_walks.of_error h
    · rcases error_of_bind h with h | ⟨_, r₄, h₄, h⟩ <;> cases h
  · cases h
    exact .inl ⟨nofun, [], .done⟩

/-- An operation is compiled: its selections are valid with respect to the calls for its spreads. -/
theorem compileOperation_walks {d : OperationDefinition} :
    RunM.Walks resolve (· ∈ Selection.spreadsAll d.selections) (compileOperation resolve d)
      fun op called => (∃ type, schema.root? d.kind = some type ∧
        ∀ s ∈ d.selections, s.Valid schema (Answered called) type.name) ∧
        Refers called .empty ⟨op.entities, op.referenced⟩ := by
  refine (RunM.Walks.report fun _ => rfl).bind fun _ _ _ => ?_
  cases schema.root? d.kind with
  | none => exact .throw nofun
  | some type =>
    refine visit_walks.bind fun p called hp => ?_
    refine (RunM.Walks.report fun _ => rfl).bind fun _ called' _ => .pure ⟨⟨type, rfl, ?_⟩, ?_⟩
    · exact fun s hs => (hp.1 s hs).mono fun _ _ h => h.mono (by simp +contextual)
    · exact fun use hu => (hp.2 use hu).imp_right fun ⟨c, hc, hu⟩ => ⟨c, by simp [hc], hu⟩

end EntityGraph
