import EntityGraph.Proofs.Request.Termination

/-!
# Work that goes in step with other work

Two pieces of work that start from one registry go in step if they end in the same way and leave one
registry again. The first one may do more to its unit than the second, so it is also allowed to fail
with a conflict of fields, if the registry that it leaves then is one that the second piece of work
passes on its way (`RunM.Follows`). Each piece of work goes in step with itself: what was looked up
before shows neither in how it ends nor in the registry (`RunM.Blind`). Main statement:
`resolveWithin_blind`, for the calls for a name, by induction on their depth.
-/

namespace EntityGraph

open LookupM (Gives Steady)

variable {schema : Schema} {α β γ δ : Type}

/-- The failure is that two fields could not be merged. -/
def BuildError.Conflict (e : BuildError) : Prop :=
  ∃ location key existing conflicting, e = .mergeConflict location key existing conflicting

section
variable (I : Run schema → Prop)

/-- Two results with one registry. They return what is related by `R`, or fail with the same error,
unless the first is a conflict on the registry of a run that was passed. -/
inductive RunM.InStep (passed : Run schema → Prop) (R : α → β → Prop) :
    EStateM.Result BuildError (Run schema) α → EStateM.Result BuildError (Run schema) β → Prop
  | ok {a : α} {b : β} {run₁ run₂ : Run schema} :
      I run₁ → run₁.registry = run₂.registry → R a b → InStep passed R (.ok a run₁) (.ok b run₂)
  | error {e : BuildError} {run₁ run₂ : Run schema} :
      run₁.registry = run₂.registry → InStep passed R (.error e run₁) (.error e run₂)
  | conflict {e : BuildError} {run₁ run : Run schema}
      {second : EStateM.Result BuildError (Run schema) β} :
      e.Conflict → passed run → run₁.registry = run.registry →
      InStep passed R (.error e run₁) second

/-- From one registry the work goes in step with the check, where `I` holds of the run of the work.
The runs that the check passes are given by `P`. -/
def RunM.Follows (P : Run schema → Run schema → Prop) (work : RunM schema α)
    (check : RunM schema β) (R : α → β → Prop) : Prop :=
  ∀ run₁ run₂, I run₁ → run₁.registry = run₂.registry →
    RunM.InStep I (P run₂) R (work run₁) (check run₂)

end

/-- The work does not see what was looked up before: on one registry it ends in one way, and leaves
one registry. -/
abbrev RunM.Blind (work : RunM schema α) : Prop :=
  RunM.Follows (fun _ => True) (fun _ _ => False) work work Eq

/-- The same of work on a unit. -/
def UnitM.Blind (work : UnitM schema α) : Prop := ∀ w, RunM.Blind (work w)

variable {I : Run schema → Prop} {P P' : Run schema → Run schema → Prop}

/-- What is said of the results may be less. -/
theorem RunM.InStep.mono {passed passed' : Run schema → Prop} {R R' : α → β → Prop}
    {first : EStateM.Result BuildError (Run schema) α}
    {second : EStateM.Result BuildError (Run schema) β}
    (h : RunM.InStep I passed R first second) (hp : ∀ run, passed run → passed' run)
    (hR : ∀ a b, R a b → R' a b) : RunM.InStep I passed' R' first second := by
  cases h with
  | ok hI hreg h => exact .ok hI hreg (hR _ _ h)
  | error hreg => exact .error hreg
  | conflict he hpassed hreg => exact .conflict he (hp _ hpassed) hreg

/-! ## Work of a run -/

namespace RunM.Follows

variable {R R' : α → β → Prop} {work : RunM schema α} {check : RunM schema β}

/-- Values that are returned. -/
theorem pure {a : α} {b : β} (h : R a b) :
    Follows I P (Pure.pure a : RunM schema α) (Pure.pure b) R :=
  fun _ _ hI hreg => .ok hI hreg h

/-- The same failure. -/
theorem throw {e : BuildError} :
    Follows I P (MonadExcept.throw e : RunM schema α) (MonadExcept.throw e) R :=
  fun _ _ _ hreg => .error hreg

/-- What is returned and passed may be described by less. -/
theorem mono (h : Follows I P work check R) (hP : ∀ run run', P run run' → P' run run')
    (hR : ∀ a b, R a b → R' a b) : Follows I P' work check R' :=
  fun run₁ run₂ hI hreg => (h run₁ run₂ hI hreg).mono (hP run₂) hR

/-- A sequence passes what its parts pass. -/
theorem bind {next : α → RunM schema γ} {next' : β → RunM schema δ} {S : γ → δ → Prop}
    {Q : β → Run schema → Run schema → Prop} (h : Follows I P work check R)
    (hnext : ∀ a b, R a b → Follows I (Q b) (next a) (next' b) S) :
    Follows I (fun run run' => P run run' ∨ ∃ b run₁, check run = .ok b run₁ ∧ Q b run₁ run')
      (work >>= next) (check >>= next') S := by
  intro run₁ run₂ hI hreg
  have h := h run₁ run₂ hI hreg
  show InStep I _ S (EStateM.bind work next run₁) (EStateM.bind check next' run₂)
  unfold EStateM.bind
  generalize work run₁ = first at h ⊢
  generalize hcheck : check run₂ = second at h ⊢
  cases h with
  | ok hI hreg hR =>
    exact (hnext _ _ hR _ _ hI hreg).mono (fun _ hQ => .inr ⟨_, _, hcheck, hQ⟩) fun _ _ h => h
  | error hreg => exact .error hreg
  | conflict he hpassed hreg => exact .conflict he (.inl hpassed) hreg

/-- A sequence whose parts end in no conflict of their own. -/
theorem bind_same {next : α → RunM schema γ} {next' : β → RunM schema δ} {S : γ → δ → Prop}
    (h : Follows I (fun _ _ => False) work check R)
    (hnext : ∀ a b, R a b → Follows I (fun _ _ => False) (next a) (next' b) S) :
    Follows I (fun _ _ => False) (work >>= next) (check >>= next') S := by
  refine (h.bind hnext).mono ?_ fun _ _ h => h
  rintro run run' (h | ⟨_, _, _, h⟩) <;> exact h

/-- Work that needs the schema only. -/
theorem ofLookup (hq : Run.Quiet I) {q : LookupM schema BuildError α} (hs : Steady q) :
    Follows I P (RunM.ofLookup q) (RunM.ofLookup q) fun a b => a = b ∧ Gives q a := by
  intro run₁ run₂ hI hreg
  have hquiet := hs.quiet run₁.lookups
  have hsame := hs.same run₁.lookups run₂.lookups
  unfold RunM.ofLookup
  cases h₁ : q run₁.lookups <;> cases h₂ : q run₂.lookups <;> rw [h₁, h₂] at hsame <;>
    cases hsame <;> rw [h₁] at hquiet
  · exact .ok (hq _ _ hI hquiet) hreg ⟨rfl, _, _, h₁⟩
  · exact .error hreg

/-- A question. -/
theorem ask (hq : Run.Quiet I) {q : LookupM schema LookupError α} (hs : Steady q) :
    Follows I P (RunM.ask q) (RunM.ask q) fun a b => a = b ∧ Gives q a :=
  (ofLookup hq hs.asked).mono (fun _ _ h => h) fun _ _ h => ⟨h.1, h.2.of_asked⟩

/-- Work that is blind goes in step with itself, with all that it is known to keep. -/
theorem of_blind {work : RunM schema α} {post : α → Prop} (h : RunM.Blind work)
    (hkeep : ∀ run a run', I run → work run = .ok a run' → I run' ∧ post a) :
    Follows I P work work fun a b => a = b ∧ post a := by
  intro run₁ run₂ hI hreg
  have h := h run₁ run₂ trivial hreg
  have hkeep := hkeep run₁
  generalize work run₁ = first at h hkeep ⊢
  generalize work run₂ = second at h ⊢
  cases h with
  | ok _ hreg hab =>
    obtain ⟨hI', hpost⟩ := hkeep _ _ hI rfl
    exact .ok hI' hreg ⟨hab, hpost⟩
  | error hreg => exact .error hreg
  | conflict _ hpassed => exact hpassed.elim

/-- A loop whose steps end in no conflict of their own. -/
theorem forM_same {f f' : γ → RunM schema Unit} :
    ∀ {l : List γ}, (∀ c ∈ l, Follows I (fun _ _ => False) (f c) (f' c) Eq) →
      Follows I (fun _ _ => False) (l.forM f) (l.forM f') Eq
  | [], _ => .pure rfl
  | c :: _, h => (h c (.head _)).bind_same fun _ _ _ => forM_same fun c' hc' => h c' (.tail _ hc')

end RunM.Follows

/-! ## Work that is blind -/

/-- Nothing is asked of the runs. -/
theorem Run.Quiet.true : Run.Quiet fun _ : Run schema => True := fun _ _ _ _ => trivial

namespace RunM.Blind

/-- A sequence of two pieces of work. -/
theorem bind {work : RunM schema α} {next : α → RunM schema β} (h : Blind work)
    (hnext : ∀ a, Blind (next a)) : Blind (work >>= next) :=
  Follows.bind_same h fun a _ hab => hab ▸ hnext a

/-- A question. -/
theorem ask {q : LookupM schema LookupError α} (hs : Steady q) : Blind (RunM.ask q) :=
  (Follows.ask .true hs).mono (fun _ _ h => h) fun _ _ h => h.1

/-- A report. -/
theorem report (event : Event) : Blind (RunM.report event : RunM schema Unit) :=
  fun _ _ _ hreg => .ok trivial hreg rfl

end RunM.Blind

namespace UnitM.Blind

/-- A value that is returned. -/
theorem pure (a : α) : Blind (Pure.pure a : UnitM schema α) := fun _ => RunM.Follows.pure rfl

/-- A sequence of two pieces of work. -/
theorem bind {work : UnitM schema α} {next : α → UnitM schema β} (h : Blind work)
    (hnext : ∀ a, Blind (next a)) : Blind (work >>= next) :=
  fun w => RunM.Blind.bind (h w) fun p => hnext p.1 p.2

/-- Work of the run leaves the unit alone. -/
theorem ofRun {work : RunM schema α} (h : RunM.Blind work) : Blind (UnitM.ofRun work) :=
  fun _ => RunM.Blind.bind h fun _ => RunM.Follows.pure rfl

/-- A question. -/
theorem ask {q : LookupM schema LookupError α} (hs : Steady q) : Blind (UnitM.ask q) :=
  .ofRun (.ask hs)

/-- The unit is looked at. -/
theorem get : Blind (get : UnitM schema Workpiece) := fun _ => RunM.Follows.pure rfl

/-- The unit is changed. -/
theorem modify (f : Workpiece → Workpiece) : Blind (modify f : UnitM schema PUnit) :=
  fun _ => RunM.Follows.pure rfl

/-- A loop. -/
theorem forM {f : γ → UnitM schema Unit} : ∀ {l : List γ}, (∀ c ∈ l, Blind (f c)) →
    Blind (l.forM f)
  | [], _ => .pure _
  | c :: _, h => (h c (.head _)).bind fun _ => forM fun c' hc' => h c' (.tail _ hc')

end UnitM.Blind

/-! ## Walks -/

/-- The declared type of a field. -/
theorem fieldType_follows (hq : Run.Quiet I) {name c : Name} {place : SourceLocation} :
    RunM.Follows I (fun _ _ => False) (RunM.fieldType name place c : RunM schema DeclaredType)
      (RunM.fieldType name place c) Eq := by
  unfold RunM.fieldType
  split
  · exact .pure rfl
  · refine (RunM.Follows.ask hq (LookupM.type_steady c)).bind_same ?_
    rintro type _ ⟨rfl, -⟩
    split
    · exact .pure rfl
    · exact .throw

/-- Nothing is selected on a type without fields. -/
theorem checkLeaf_follows {type : NamedType} {selections : List Selection} :
    RunM.Follows I P (RunM.checkLeaf type selections : RunM schema Unit)
      (RunM.checkLeaf type selections) Eq := by
  unfold RunM.checkLeaf
  split
  · exact .pure rfl
  · exact .throw

/-- Selections are checked, where names are resolved in step. Any bounds will do that the selections
are within. -/
theorem validateWithin_follows (hq : Run.Quiet I) {resolve : Name → RunM schema Fragment}
    (hr : ∀ name, RunM.Follows I (fun _ _ => False) (resolve name) (resolve name) Eq)
    {height height' : Nat} {c : Name} {selections : List Selection}
    (hheight : Selection.heightAll selections ≤ height)
    (hheight' : Selection.heightAll selections ≤ height') :
    RunM.Follows I (fun _ _ => False) (validateWithin resolve height c selections)
      (validateWithin resolve height' c selections) Eq := by
  induction height generalizing height' c selections with
  | zero =>
    cases Selection.eq_nil_of_heightAll (Nat.le_zero.1 hheight)
    cases height' <;> exact RunM.Follows.pure rfl
  | succ height ih =>
    cases height' with
    | zero =>
      cases Selection.eq_nil_of_heightAll (Nat.le_zero.1 hheight')
      exact RunM.Follows.pure rfl
    | succ height' =>
      refine (RunM.Follows.ask hq (Selection.normalizeAll_steady c selections)).bind_same ?_
      rintro normal _ ⟨rfl, hn⟩
      refine .forM_same fun s hs => ?_
      have hlower := (Selection.normalizeAll_parts selections hn s hs).lower
      have h : Selection.heightAll s.selections ≤ height := by omega
      have h' : Selection.heightAll s.selections ≤ height' := by omega
      cases s with
      | field aliasName name place inner c =>
        refine (fieldType_follows hq).bind_same ?_
        rintro declared _ rfl
        refine (RunM.Follows.ask hq (LookupM.type_steady _)).bind_same ?_
        rintro type _ ⟨rfl, -⟩
        split
        · exact ih h h'
        · exact checkLeaf_follows
      | spread name place c => exact (hr name).bind_same fun _ _ _ => .pure rfl
      | unreachable place inner own => exact ih h h'

/-- The entity at a location. -/
theorem entityAt_blind {l : Location} :
    UnitM.Blind (UnitM.entityAt l : UnitM schema Entity) := by
  refine UnitM.Blind.get.bind fun w => ?_
  split
  · exact .pure _
  · exact (UnitM.Blind.ofRun (.report _)).bind fun _ => (UnitM.Blind.modify _).bind fun _ => .pure _

/-- A field is merged. -/
theorem mergeAt_blind {l : Location} {f : EntityField} :
    UnitM.Blind (UnitM.mergeAt l f : UnitM schema Unit) := by
  refine entityAt_blind.bind fun e => (UnitM.Blind.ofRun ?_).bind fun _ => .modify _
  exact (RunM.Follows.ofLookup .true (e.mergeField_steady f)).mono (fun _ _ h => h) fun _ _ h => h.1

/-- A fragment is copied. -/
theorem copyWithin_blind {fragment : Fragment} {depth : Nat} {target source : Location}
    {c : Name} : UnitM.Blind (copyWithin fragment depth target source c : UnitM schema Unit) := by
  induction depth generalizing target source c with
  | zero => exact .pure _
  | succ depth ih =>
    unfold copyWithin
    split
    · exact .pure _
    · refine entityAt_blind.bind fun known => (UnitM.Blind.modify _).bind fun _ => ?_
      refine .forM fun f _ => (UnitM.Blind.ask (narrowConditions_steady ..)).bind fun cs => ?_
      split
      · exact .pure _
      · cases f.child with
        | some source => exact ih.bind fun _ => mergeAt_blind
        | none => exact mergeAt_blind

section
variable {resolve : Name → RunM schema Fragment} (hr : ∀ name, RunM.Blind (resolve name))
include hr

/-- Selections are entered. -/
theorem visitWithin_blind {height : Nat} {location : Location} {c : Name}
    {selections : List Selection} :
    UnitM.Blind (visitWithin resolve height location c selections) := by
  induction height generalizing location c selections with
  | zero => exact entityAt_blind.bind fun _ => .pure _
  | succ height ih =>
    refine entityAt_blind.bind fun _ => ?_
    refine (UnitM.Blind.ask (Selection.normalizeAll_steady c selections)).bind fun normal => ?_
    refine .forM fun s _ => ?_
    cases s with
    | field aliasName name place inner c =>
      refine (UnitM.Blind.ofRun (fieldType_follows .true)).bind fun declared => ?_
      refine (UnitM.Blind.ask (LookupM.type_steady _)).bind fun type => ?_
      split
      · exact ih.bind fun _ => mergeAt_blind
      · exact (UnitM.Blind.ofRun checkLeaf_follows).bind fun _ => mergeAt_blind
    | spread name place c =>
      refine (UnitM.Blind.ofRun (hr name)).bind fun fragment => ?_
      refine (UnitM.Blind.modify _).bind fun _ => ?_
      refine (UnitM.Blind.ask (LookupM.intersect_steady ..)).bind fun cs => ?_
      exact .forM fun _ _ => copyWithin_blind
    | unreachable place inner own =>
      exact .ofRun (validateWithin_follows .true hr (Nat.le_refl _) (Nat.le_refl _))

/-- A fragment definition is compiled. -/
theorem compileFragment_blind {d : FragmentDefinition} :
    RunM.Blind (compileFragment resolve d) := by
  refine (RunM.Blind.report _).bind fun _ => ?_
  refine (RunM.Blind.ask (LookupM.type_steady d.condition)).bind fun type => ?_
  split
  · refine RunM.Blind.bind (visitWithin_blind hr .empty) fun p => ?_
    exact (RunM.Blind.report _).bind fun _ => .pure rfl
  · exact .throw

end

/-! ## Calls for a name -/

namespace RunM.Blind

/-- Work on one registry ends in one way while a fragment is under construction. -/
theorem underConstruction {name : Name} {work : RunM schema α} (h : Blind work) :
    Blind (RunM.underConstruction name work) := by
  intro run₁ run₂ _ hreg
  have hmark : (run₁.enter name).registry = (run₂.enter name).registry := by
    simp only [Run.enter, hreg]
  have h := h _ _ trivial hmark
  unfold Run.enter at h
  unfold RunM.underConstruction
  dsimp only
  generalize work _ = first at h ⊢
  generalize work _ = second at h ⊢
  cases h with
  | ok _ hreg hab => exact .ok trivial (by simp only [hreg]) hab
  | error hreg => exact .error (by simp only [hreg])
  | conflict _ hpassed => exact hpassed.elim

/-- The kept fragment is told from others by the registry alone. -/
theorem keep {name : Name} {c : Compiled FragmentDefinition} :
    Blind (RunM.keep name c : RunM schema Fragment) := by
  intro run₁ run₂ _ hreg
  refine .ok trivial ?_ ?_ <;> simp only [hreg]

/-- What is compiled or under construction is told by the registry alone. -/
theorem reuseOr {name : Name} {compile : RunM schema Fragment} (h : Blind compile) :
    Blind (RunM.reuseOr name compile) := by
  intro run₁ run₂ _ hreg
  rw [RunM.reuseOr, get_bind, get_bind, hreg]
  cases run₂.registry.built.find? name with
  | some fragment =>
    exact RunM.Blind.bind (.report _) (fun _ => Follows.pure rfl) _ _ trivial hreg
  | none =>
    cases run₂.registry.inProgress.contains name with
    | true => exact .error hreg
    | false => exact h _ _ trivial hreg

end RunM.Blind

/-- A call for a name: what was looked up before shows neither in how it ends nor in the registry
that it leaves. -/
theorem resolveWithin_blind {depth : Nat} {name : Name} :
    RunM.Blind (RunM.resolveWithin depth name : RunM schema Fragment) := by
  induction depth generalizing name with
  | zero => exact .reuseOr .throw
  | succ depth ih =>
    refine .reuseOr fun run₁ run₂ _ hreg => ?_
    rw [RunM.get_bind, RunM.get_bind, hreg]
    cases run₂.registry.definitions.find? name with
    | some d =>
      exact RunM.Blind.bind (.underConstruction (compileFragment_blind fun _ => ih))
        (fun _ => .keep) _ _ trivial hreg
    | none => exact .error hreg

/-- A call without a bound on its depth. -/
theorem resolve_blind {name : Name} : RunM.Blind (RunM.resolve name : RunM schema Fragment) := by
  intro run₁ run₂ _ hreg
  rw [RunM.resolve_eq, RunM.resolve_eq, hreg]
  exact resolveWithin_blind _ _ trivial hreg

end EntityGraph
