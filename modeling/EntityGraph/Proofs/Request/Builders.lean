import EntityGraph.Proofs.Request.Kept

/-!
# Builders between requests

Between two requests a builder stands on a registry that knows exactly the fragments of its document
and has nothing under construction (`Builder.Standing`), whatever was requested before and however
it ended. `Builder.Meets` says what requests return and fail with on such a builder; its rules
follow the shape of a request.
-/

namespace EntityGraph

variable {schema : Schema} {α β : Type} {document : Document}

/-! ## New builders -/

/-- Registering definitions in turn is a history that puts nothing under construction. -/
theorem Registry.forM_register_steps {ds : List FragmentDefinition} {registry registry' : Registry}
    (lookups : Lookups schema) (h : ds.forM Registry.register registry = .ok () registry') :
    Run.Steps ⟨lookups, registry⟩ ⟨lookups, registry'⟩ ∧
      registry'.inProgress = registry.inProgress := by
  induction ds generalizing registry with
  | nil =>
    cases h
    exact ⟨.refl, rfl⟩
  | cons d ds ih =>
    obtain ⟨u, registry₁, h₁, h₂⟩ := ok_of_bind h
    obtain ⟨hsteps, hidle⟩ := ih h₂
    have hstep : Run.Step ⟨lookups, registry⟩ ⟨lookups, registry₁⟩ := .registered (.inl ⟨u, h₁⟩)
    refine ⟨.head hstep hsteps, hidle.trans ?_⟩
    unfold Registry.register at h₁
    split at h₁ <;> cases h₁
    rfl

namespace Builder

/-- Between two requests: the registry knows the fragments of the document, as on a new builder, and
nothing is under construction. -/
structure Standing (document : Document) (b : Builder schema) : Prop where
  same : b.document = document
  live : b.run.Live
  idle : b.run.registry.inProgress = ∅
  definitions : ∃ b₀, Builder.new schema document = .ok b₀ ∧
    b.run.registry.definitions = b₀.run.registry.definitions

/-- A new builder. -/
theorem Standing.new {b : Builder schema} (h : Builder.new schema document = .ok b) :
    b.Standing document ∧ b.poisoned = false ∧ b.run.registry.built = ∅ := by
  have hnew := h
  unfold Builder.new at h
  split at h
  · next u registry hr =>
    cases h
    have hfragments : document.fragments.forM Registry.register (.empty 0) = .ok () registry := hr
    obtain ⟨hsteps, hidle⟩ := Registry.forM_register_steps (.fresh schema) hfragments
    have hbuilt := (Registry.forM_register hfragments).1
    exact ⟨⟨rfl, ⟨_, 0, fun _ => rfl, hsteps⟩, hidle, _, hnew, rfl⟩, rfl, hbuilt⟩
  · cases h

/-- The registry knows the fragments of the document and no others. -/
theorem Standing.defines_iff {b : Builder schema} (h : b.Standing document) {name : Name}
    {d : FragmentDefinition} :
    b.run.registry.definitions.find? name = some d ↔ document.Defines name d := by
  obtain ⟨b₀, hnew, hdef⟩ := h.definitions
  rw [hdef]
  unfold Builder.new at hnew
  split at hnew
  · next u registry hr =>
    cases hnew
    rw [(Registry.forM_register hr).2]
    simp [Registry.empty, Document.Defines]
  · cases hnew

/-- A builder whose registry has more compiled fragments. -/
theorem Standing.extend {b b' : Builder schema} (h : b.Standing document)
    (hd : b'.document = b.document) (hlive : b'.run.Live)
    (hx : b.run.registry.Extends b'.run.registry) : b'.Standing document where
  same := hd.trans h.same
  live := hlive
  idle := hx.inProgress.trans h.idle
  definitions := by
    obtain ⟨b₀, hnew, hdef⟩ := h.definitions
    exact ⟨b₀, hnew, hx.definitions.trans hdef⟩

/-! ## Requests -/

section
variable {b : Builder schema} {work : RunM schema α} {run : Run schema}

/-- A poisoned builder refuses. -/
theorem guarded_of_poisoned (hp : b.poisoned = true) : guarded work b = .error .poisoned b :=
  if_pos hp

/-- Work that succeeds goes on with its run. -/
theorem guarded_of_ok {a : α} (hp : b.poisoned = false) (hw : work b.run = .ok a run) :
    guarded work b = .ok a { b with run } := by
  unfold guarded
  rw [if_neg (by simp [hp]), hw]

/-- Work that fails poisons the builder. -/
theorem guarded_of_error {e : BuildError} (hp : b.poisoned = false)
    (hw : work b.run = .error e run) :
    guarded work b = .error e { b with
      poisoned := true
      run := { run with lookups.log := .poisonedBuilder e :: run.lookups.log } } := by
  unfold guarded
  rw [if_neg (by simp [hp]), hw]

end

/-- A request for a named operation looks at the document before it compiles anything. -/
theorem buildOperationNamed_eq (name : Name) (b : Builder schema) :
    buildOperationNamed name b =
      match b.document.operation? name with
      | some d => buildOperation d b
      | none => .error (.unknownOperation name) b := by
  show (match b.document.operation? name with
    | some d => buildOperation d
    | none => throw (BuildError.unknownOperation name)) b = _
  cases b.document.operation? name <;> rfl

/-- On a builder between requests the work ends with one, and what it returns and fails with is as
described. -/
def Meets (document : Document) (work : BuilderM schema α) (post : α → Prop)
    (bad : BuildError → Prop) : Prop :=
  ∀ b, b.Standing document →
    match work b with
    | .ok a b' => b'.Standing document ∧ post a
    | .error e b' => b'.Standing document ∧ bad e

variable {post : α → Prop} {bad : BuildError → Prop}

namespace Meets

/-- A value that is returned. -/
theorem pure {a : α} (h : post a) : Meets document (Pure.pure a : BuilderM schema α) post bad :=
  fun _ hb => ⟨hb, h⟩

/-- A failure. -/
theorem throw {e : BuildError} (h : bad e) :
    Meets document (MonadExcept.throw e : BuilderM schema α) post bad :=
  fun _ hb => ⟨hb, h⟩

/-- The builder is looked at. -/
theorem get : Meets document (MonadState.get : BuilderM schema (Builder schema))
    (fun b => b.document = document) bad :=
  fun _ hb => ⟨hb, hb.same⟩

/-- A sequence. -/
theorem bind {work : BuilderM schema α} {next : α → BuilderM schema β} {mid : α → Prop}
    {post : β → Prop} (h₁ : Meets document work mid bad)
    (h₂ : ∀ a, mid a → Meets document (next a) post bad) :
    Meets document (work >>= next) post bad := by
  intro b hb
  have h := h₁ b hb
  split at h
  · next a b' hw =>
    rw [bind_of_ok hw]
    exact h₂ a h.2 b' h.1
  · next e b' hw =>
    rw [bind_of_error hw]
    exact h

/-- Requests for the elements of a list. -/
theorem mapM {f : α → BuilderM schema β} {P : α → Prop} {l : List α}
    (h : ∀ a ∈ l, Meets document (f a) (fun _ => P a) bad) :
    Meets document (l.mapM f) (fun _ => ∀ a ∈ l, P a) bad := by
  induction l with
  | nil =>
    rw [List.mapM_nil]
    exact .pure (by simp)
  | cons a l ih =>
    rw [List.mapM_cons]
    refine (h a (.head _)).bind fun r ha => ?_
    refine (ih fun a' ha' => h a' (List.mem_cons_of_mem _ ha')).bind fun rs hl => ?_
    exact .pure (List.forall_mem_cons.2 ⟨ha, hl⟩)

/-- Work on the run of a builder that is not poisoned. -/
theorem guarded {work : RunM schema α} (hbad : bad .poisoned)
    (h : ∀ b : Builder schema, b.Standing document →
      match work b.run with
      | .ok a run => run.Live ∧ b.run.registry.Extends run.registry ∧ post a
      | .error e run => run.Live ∧ b.run.registry.Extends run.registry ∧ bad e) :
    Meets document (Builder.guarded work) post bad := by
  intro b hb
  have h := h b hb
  cases hp : b.poisoned with
  | true =>
    rw [guarded_of_poisoned hp]
    exact ⟨hb, hbad⟩
  | false =>
    cases hw : work b.run with
    | ok a run =>
      rw [hw] at h
      rw [guarded_of_ok hp hw]
      obtain ⟨hlive, hx, ha⟩ := h
      exact ⟨hb.extend rfl hlive hx, ha⟩
    | error e run =>
      rw [hw] at h
      rw [guarded_of_error hp hw]
      obtain ⟨hlive, hx, he⟩ := h
      refine ⟨hb.extend rfl (hlive.step (.asked ?_)) hx, he⟩
      intro name
      simp [timesBuilt_cons, Event.builds]

/-- A request for a fragment. -/
theorem fragment {name : Name} {post : Fragment → Prop} (hbad : bad .poisoned)
    (h : ∀ b : Builder schema, b.Standing document →
      match RunM.resolve name b.run with
      | .ok f _ => post f
      | .error e _ => bad e) :
    Meets document (buildFragment name : BuilderM schema Fragment) post bad := by
  refine .guarded hbad fun b hb => ?_
  have h := h b hb
  have hlead : b.run.Leads name (RunM.resolve name b.run) := resolveWithin_kept hb.live.kept
  cases hr : RunM.resolve name b.run with
  | ok f run =>
    rw [hr] at h hlead
    exact ⟨hb.live.step (.resolved (.inl ⟨f, hr⟩)), hlead.2.1, h⟩
  | error e run =>
    rw [hr] at h hlead
    exact ⟨hb.live.step (.resolved (.inr ⟨e, hr⟩)), hlead.2.1, h⟩

/-- A request for an operation. -/
theorem operation {d : OperationDefinition} {post : Operation → Prop} (hbad : bad .poisoned)
    (h : ∀ b : Builder schema, b.Standing document →
      match RunM.operation d b.run with
      | .ok op _ => post op
      | .error e _ => bad e) :
    Meets document (buildOperation d : BuilderM schema Operation) post bad := by
  refine .guarded hbad fun b hb => ?_
  have h := h b hb
  have hlead := operation_kept hb.live.kept d
  cases ho : RunM.operation d b.run with
  | ok op run =>
    rw [ho] at h hlead
    exact ⟨hb.live.step (.operation (.inl ⟨op, ho⟩)), hlead.2.1, h⟩
  | error e run =>
    rw [ho] at h hlead
    exact ⟨hb.live.step (.operation (.inr ⟨e, ho⟩)), hlead.2, h⟩

/-- However work ends, the builder is between requests again. -/
theorem standing {work : BuilderM schema α} {b b' : Builder schema}
    (h : Meets document work post bad) (hb : b.Standing document) (he : Ends work b b') :
    b'.Standing document := by
  have h := h b hb
  rcases he with ⟨a, he⟩ | ⟨e, he⟩ <;> rw [he] at h <;> exact h.1

end Meets

section
variable (schema document)

/-- A request for a fragment ends between requests. -/
theorem buildFragment_meets (name : Name) :
    Meets document (buildFragment name : BuilderM schema Fragment) (fun _ => True) fun _ => True :=
  .fragment trivial fun b _ => by split <;> trivial

/-- A request for an operation ends between requests. -/
theorem buildOperation_meets (d : OperationDefinition) :
    Meets document (buildOperation d : BuilderM schema Operation) (fun _ => True) fun _ => True :=
  .operation trivial fun b _ => by split <;> trivial

end

/-- Requests lead from one standing builder to the next. -/
theorem Reachable.standing {b : Builder schema} (h : b.Reachable schema document) :
    b.Standing document := by
  induction h with
  | new h => exact (Standing.new h).1
  | fragment _ he ih => exact (buildFragment_meets schema document _).standing ih he
  | operation _ he ih => exact (buildOperation_meets schema document _).standing ih he

end Builder

end EntityGraph
