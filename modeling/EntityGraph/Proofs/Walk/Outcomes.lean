import EntityGraph.Build.Visit
import EntityGraph.Proofs.Entity.Merging

/-!
# How work on a unit ends

A piece of work of a run changes the registry only where it compiles fragments, and asks questions
in between. `RunM.Does I work post` says what matters about it: started with a registry that
satisfies `I`, it leaves one that satisfies `I` however it ends, and what it returns satisfies
`post`. `UnitM.Does` says the same of work on a compilation unit, where `post` also sees the unit.
The rules below follow the shape of the work: a sequence, a question, a loop (`Chain`).
-/

namespace EntityGraph

variable {schema : Schema} {α β : Type}

/-! ## Work of a run -/

namespace RunM

/-- The work keeps `I` of the registry however it ends, and what it returns satisfies `post`. -/
def Does (I : Registry → Prop) (work : RunM schema α) (post : α → Prop) : Prop :=
  ∀ run, I run.registry →
    match work run with
    | .ok a run' => I run'.registry ∧ post a
    | .error _ run' => I run'.registry

variable {I : Registry → Prop}

/-- A value that is returned. -/
theorem Does.pure {a : α} {post : α → Prop} (h : post a) :
    Does I (Pure.pure a : RunM schema α) post := fun _ hI => ⟨hI, h⟩

/-- A failure returns nothing. -/
theorem Does.throw {e : BuildError} {post : α → Prop} :
    Does I (MonadExcept.throw e : RunM schema α) post := fun _ hI => hI

/-- What is returned may be described by less. -/
theorem Does.mono {work : RunM schema α} {post post' : α → Prop} (h : Does I work post)
    (himp : ∀ a, post a → post' a) : Does I work post' := by
  intro run hI
  have h := h run hI
  split at h
  · exact ⟨h.1, himp _ h.2⟩
  · exact h

/-- A sequence of two pieces of work. -/
theorem Does.bind {work : RunM schema α} {next : α → RunM schema β} {mid : α → Prop}
    {post : β → Prop} (h₁ : Does I work mid) (h₂ : ∀ a, mid a → Does I (next a) post) :
    Does I (work >>= next) post := by
  intro run hI
  have h := h₁ run hI
  split at h
  · next a run' hw =>
    rw [bind_of_ok hw]
    exact h₂ a h.2 run' h.1
  · next e run' hw =>
    rw [bind_of_error hw]
    exact h

/-- Work that needs the schema only leaves the registry alone. -/
theorem Does.ofLookup {work : LookupM schema BuildError α} :
    Does I (RunM.ofLookup work) (LookupM.Gives work) := by
  intro run hI
  unfold RunM.ofLookup
  cases hw : work run.lookups with
  | ok a lookups => exact ⟨hI, _, _, hw⟩
  | error e lookups => exact hI

/-- A question is answered. -/
theorem Does.ask {question : LookupM schema LookupError α} :
    Does I (RunM.ask question) (LookupM.Gives question) :=
  Does.ofLookup.mono fun _ h => h.of_asked

/-- A report returns. -/
theorem Does.report {event : Event} : Does I (RunM.report event : RunM schema Unit) fun _ => True :=
  Does.ofLookup.mono fun _ _ => trivial

/-- A loop whose steps return. -/
theorem Does.forM {f : α → RunM schema Unit} :
    ∀ {l : List α}, (∀ a ∈ l, Does I (f a) fun _ => True) → Does I (l.forM f) fun _ => True
  | [], _ => .pure trivial
  | a :: _, h =>
    .bind (h a (.head _)) fun _ _ => Does.forM fun b hb => h b (List.mem_cons_of_mem _ hb)

end RunM

/-! ## Work on a unit -/

/-- The steps of a loop over a list, one after the other. -/
def Chain (R : α → Workpiece → Workpiece → Prop) : List α → Workpiece → Workpiece → Prop
  | [], w, w' => w' = w
  | a :: l, w, w' => ∃ w₁, R a w w₁ ∧ Chain R l w₁ w'

/-- What every step of a loop does, in a relation that can be followed along, the loop does. -/
theorem Chain.lift {R : α → Workpiece → Workpiece → Prop} {T : Workpiece → Workpiece → Prop}
    (refl : ∀ w, T w w) (trans : ∀ {w₁ w₂ w₃}, T w₁ w₂ → T w₂ w₃ → T w₁ w₃) :
    ∀ {l : List α} {w w' : Workpiece}, (∀ a ∈ l, ∀ w w', R a w w' → T w w') →
      Chain R l w w' → T w w'
  | [], w, _, _, h => h ▸ refl w
  | a :: _, w, _, step, h =>
    have ⟨w₁, h₁, h₂⟩ := h
    trans (step a (.head _) w w₁ h₁)
      (Chain.lift refl trans (fun b hb => step b (List.mem_cons_of_mem _ hb)) h₂)

/-- A loop comes to each element of its list, and goes on from there. -/
theorem Chain.split {R : α → Workpiece → Workpiece → Prop} {a : α} :
    ∀ {l : List α} {w w' : Workpiece}, Chain R l w w' → a ∈ l →
      ∃ before after w₁ w₂, l = before ++ a :: after ∧ Chain R before w w₁ ∧ R a w₁ w₂ ∧
        Chain R after w₂ w'
  | b :: l, w, w', ⟨w₁, h₁, h₂⟩, hm => by
    rcases List.mem_cons.1 hm with rfl | hm
    · exact ⟨[], l, w, w₁, rfl, rfl, h₁, h₂⟩
    · obtain ⟨before, after, u₁, u₂, rfl, hb, ha, hr⟩ := h₂.split hm
      exact ⟨b :: before, after, u₁, u₂, rfl, ⟨w₁, h₁, hb⟩, ha, hr⟩

namespace UnitM

section
variable {work : UnitM schema α} {next : α → UnitM schema β} {w : Workpiece} {run run' : Run schema}

/-- A sequence goes on with what its first part leaves of the unit and of the run. -/
theorem bind_of_ok {p : α × Workpiece} (h : work w run = .ok p run') :
    (work >>= next) w run = next p.1 p.2 run' :=
  EntityGraph.bind_of_ok h

/-- A sequence ends where its first part fails. -/
theorem bind_of_error {e : BuildError} (h : work w run = .error e run') :
    (work >>= next) w run = .error e run' :=
  EntityGraph.bind_of_error h

/-- Work of the run that succeeds leaves the unit alone. -/
theorem ofRun_of_ok {work : RunM schema α} {a : α} (h : work run = .ok a run') :
    UnitM.ofRun work w run = .ok (a, w) run' :=
  EntityGraph.bind_of_ok h

end

/-- The work on the unit `w` keeps `I` of the registry however it ends, and what it returns and
leaves of the unit satisfies `post`. -/
def Does (I : Registry → Prop) (work : UnitM schema α) (w : Workpiece)
    (post : α → Workpiece → Prop) : Prop :=
  RunM.Does I (work w) fun p => post p.1 p.2

variable {I : Registry → Prop} {w : Workpiece}

/-- A value that is returned. -/
theorem Does.pure {a : α} {post : α → Workpiece → Prop} (h : post a w) :
    Does I (Pure.pure a : UnitM schema α) w post := RunM.Does.pure h

/-- What is returned may be described by less. -/
theorem Does.mono {work : UnitM schema α} {post post' : α → Workpiece → Prop}
    (h : Does I work w post) (himp : ∀ a w', post a w' → post' a w') : Does I work w post' :=
  RunM.Does.mono h fun _ => himp _ _

/-- A sequence of two pieces of work. -/
theorem Does.bind {work : UnitM schema α} {next : α → UnitM schema β}
    {mid : α → Workpiece → Prop} {post : β → Workpiece → Prop} (h₁ : Does I work w mid)
    (h₂ : ∀ a w₁, mid a w₁ → Does I (next a) w₁ post) : Does I (work >>= next) w post :=
  RunM.Does.bind h₁ fun p hp => h₂ p.1 p.2 hp

/-- Work of the run leaves the unit alone. -/
theorem Does.ofRun {work : RunM schema α} {post : α → Prop} (h : RunM.Does I work post) :
    Does I (UnitM.ofRun work) w fun a w' => post a ∧ w' = w :=
  RunM.Does.bind h fun _ ha => .pure ⟨ha, rfl⟩

/-- A question is answered. -/
theorem Does.ask {question : LookupM schema LookupError α} :
    Does I (UnitM.ask question) w fun a w' => LookupM.Gives question a ∧ w' = w :=
  .ofRun .ask

/-- The unit is looked at. -/
theorem Does.get : Does I (get : UnitM schema Workpiece) w fun a w' => a = w ∧ w' = w :=
  fun _ hI => ⟨hI, rfl, rfl⟩

/-- The unit is changed. -/
theorem Does.modify {f : Workpiece → Workpiece} :
    Does I (modify f : UnitM schema PUnit) w fun _ w' => w' = f w := fun _ hI => ⟨hI, rfl⟩

/-- A loop takes its steps one after the other. -/
theorem Does.forM {f : α → UnitM schema Unit} {R : α → Workpiece → Workpiece → Prop} :
    ∀ {l : List α} {w : Workpiece}, (∀ a ∈ l, ∀ w, Does I (f a) w fun _ w' => R a w w') →
      Does I (l.forM f) w fun _ w' => Chain R l w w'
  | [], _, _ => .pure rfl
  | a :: _, w, h =>
    .bind (h a (.head _) w) fun _ w₁ h₁ =>
      (Does.forM fun b hb => h b (List.mem_cons_of_mem _ hb)).mono fun _ _ h₂ => ⟨w₁, h₁, h₂⟩

end UnitM

end EntityGraph
