import EntityGraph.Proofs.Request.Builders
import EntityGraph.Proofs.Request.Memoised

/-!
# Replies of a builder

A builder that is not poisoned replies to a request as a new builder for the same document does,
whatever was requested before: it stands on a registry that answers as if it had kept nothing.
`Builder.Same` says that work ends alike on all builders that are ready, by one rule for each way of
putting requests together; every request is the `Same` (`Builder.perform_same`). So a document is
built exactly if each of its definitions is built on its own (`Builder.buildDocument_ok_iff`), and
with the statement about registries this makes `memo_invisible`.
-/

namespace EntityGraph

section
variable {schema : Schema}

/-! ## Requests to builders -/

/-- A request to a builder. -/
inductive Request where
  | operation (definition : OperationDefinition)
  | operationNamed (name : Name)
  | fragment (name : Name)
  | document

/-- What a builder returns for a request, apart from instances. -/
inductive Reply where
  | operation (content : Content OperationDefinition)
  | fragment (content : Content FragmentDefinition)
  | document (operations : List (Content OperationDefinition))
      (fragments : List (Content FragmentDefinition))

/-- Makes a request. -/
def Request.perform : Request → BuilderM schema Reply
  | operation d => do return .operation (← Builder.buildOperation d).content
  | operationNamed name => do return .operation (← Builder.buildOperationNamed name).content
  | fragment name => do return .fragment (← Builder.buildFragment name).content
  | document => do
    let compiled ← Builder.buildDocument
    return .document (compiled.operations.map fun op => op.content)
      (compiled.fragments.map fun f => f.content)

namespace Builder

/-- The builder after some requests, whether they succeeded or not. -/
inductive After (schema : Schema) (document : Document) : List Request → Builder schema → Prop
  | new {b : Builder schema} : Builder.new schema document = .ok b → After schema document [] b
  | request {history : List Request} {b b' : Builder schema} {r : Request} :
      After schema document history b → Ends r.perform b b' →
      After schema document (history ++ [r]) b'

variable {document : Document} {α β : Type}

/-- Between requests, none of which has failed. -/
structure Ready (document : Document) (b : Builder schema) : Prop extends
    Standing document b where
  unpoisoned : b.poisoned = false

/-- The registry of a builder between requests. -/
theorem Standing.mirrors {b b₀ : Builder schema} (h : b.Standing document)
    (hnew : Builder.new schema document = .ok b₀) :
    b.run.Mirrors b₀.run.registry.definitions ∅ := by
  obtain ⟨b₁, hnew₁, hdef⟩ := h.definitions
  rw [hnew] at hnew₁
  cases hnew₁
  have hmirrors := h.live.mirrors
  rwa [hdef, h.idle] at hmirrors

/-- The second result is like the first one: what they return is related by `R`, and both builders
are ready again. -/
def Likened (document : Document) (R : α → β → Prop)
    (second : EStateM.Result BuildError (Builder schema) β) :
    (first : EStateM.Result BuildError (Builder schema) α) → Prop
  | .ok a b => b.Ready document ∧ ∃ a' b', second = .ok a' b' ∧ b'.Ready document ∧ R a a'
  | .error e _ => ∃ b', second = .error e b'

/-- The two pieces of work end alike on builders that are ready. -/
def Same (document : Document) (work : BuilderM schema α) (work' : BuilderM schema β)
    (R : α → β → Prop) : Prop :=
  ∀ b b' : Builder schema, b.Ready document → b'.Ready document →
    Likened document R (work' b') (work b)

namespace Same

variable {R : α → β → Prop}

/-- Values that are returned. -/
theorem pure {a : α} {a' : β} (h : R a a') :
    Same document (Pure.pure a : BuilderM schema α) (Pure.pure a') R :=
  fun _ b' hb hb' => ⟨hb, a', b', rfl, hb', h⟩

/-- The same failure. -/
theorem throw {e : BuildError} :
    Same document (MonadExcept.throw e : BuilderM schema α) (MonadExcept.throw e) R :=
  fun _ b' _ _ => ⟨b', rfl⟩

/-- The builders are looked at. -/
theorem get : Same document (MonadState.get : BuilderM schema (Builder schema)) MonadState.get
    fun b b' => b.document = document ∧ b'.document = document :=
  fun _ b' hb hb' => ⟨hb, b', b', rfl, hb', hb.same, hb'.same⟩

/-- Sequences. -/
theorem bind {γ γ' : Type} {work : BuilderM schema α} {work' : BuilderM schema β}
    {next : α → BuilderM schema γ} {next' : β → BuilderM schema γ'} {S : γ → γ' → Prop}
    (h : Same document work work' R)
    (hnext : ∀ a a', R a a' → Same document (next a) (next' a') S) :
    Same document (work >>= next) (work' >>= next') S := by
  intro b b' hb hb'
  have h := h b b' hb hb'
  cases hw : work b with
  | ok a c =>
    rw [hw] at h
    obtain ⟨hc, a', c', hw', hc', hR⟩ := h
    rw [bind_of_ok hw, bind_of_ok hw']
    exact hnext a a' hR c c' hc hc'
  | error e c =>
    rw [hw] at h
    obtain ⟨c', hw'⟩ := h
    rw [bind_of_error hw]
    exact ⟨c', bind_of_error hw'⟩

/-- Requests for the elements of a list. -/
theorem mapM {γ : Type} {f : γ → BuilderM schema α} {f' : γ → BuilderM schema β} {l : List γ}
    (h : ∀ c ∈ l, Same document (f c) (f' c) R) :
    Same document (l.mapM f) (l.mapM f') (List.Forall₂ R) := by
  induction l with
  | nil =>
    rw [List.mapM_nil, List.mapM_nil]
    exact .pure .nil
  | cons c l ih =>
    rw [List.mapM_cons, List.mapM_cons]
    refine (h c (.head _)).bind fun r r' hr => ?_
    refine (ih fun c' hc' => h c' (List.mem_cons_of_mem _ hc')).bind fun rs rs' hrs => ?_
    exact .pure (.cons hr hrs)

/-- Guarded work that ends alike on the runs of builders that are ready. -/
theorem guarded {γ : Type} {work : RunM schema α} {view : α → γ}
    (hmeets : Meets document (Builder.guarded work) (fun _ => True) fun _ => True)
    (h : ∀ b b' : Builder schema, b.Ready document → b'.Ready document →
      (outcome (work b.run)).map view = (outcome (work b'.run)).map view) :
    Same document (Builder.guarded work) (Builder.guarded work) fun a a' => view a = view a' := by
  intro b b' hb hb'
  have h := h b b' hb hb'
  have hm := hmeets b hb.toStanding
  have hm' := hmeets b' hb'.toStanding
  cases hw : work b.run with
  | ok a run =>
    cases hw' : work b'.run with
    | ok a' run' =>
      rw [guarded_of_ok hb.unpoisoned hw] at hm ⊢
      rw [guarded_of_ok hb'.unpoisoned hw'] at hm' ⊢
      rw [hw, hw'] at h
      exact ⟨⟨hm.1, hb.unpoisoned⟩, a', _, rfl, ⟨hm'.1, hb'.unpoisoned⟩, Except.ok.inj h⟩
    | error e' run' =>
      rw [hw, hw'] at h
      cases h
  | error e run =>
    cases hw' : work b'.run with
    | ok a' run' =>
      rw [hw, hw'] at h
      cases h
    | error e' run' =>
      rw [guarded_of_error hb.unpoisoned hw, guarded_of_error hb'.unpoisoned hw']
      rw [hw, hw'] at h
      cases h
      exact ⟨_, rfl⟩

end Same

section
variable (schema document)

/-- A request for an operation ends alike on all builders that are ready. -/
theorem buildOperation_same (d : OperationDefinition) :
    Same document (buildOperation d : BuilderM schema Operation) (buildOperation d)
      fun op op' => op.content = op'.content := by
  refine .guarded (buildOperation_meets schema document d) fun b b' hb hb' => ?_
  obtain ⟨b₀, hnew, -⟩ := hb.definitions
  exact (hb.mirrors hnew).operation_eq (hb'.mirrors hnew) d

/-- A request for a fragment ends alike on all builders that are ready. -/
theorem buildFragment_same (name : Name) :
    Same document (buildFragment name : BuilderM schema Fragment) (buildFragment name)
      fun f f' => f.content = f'.content := by
  refine .guarded (buildFragment_meets schema document name) fun b b' hb hb' => ?_
  obtain ⟨b₀, hnew, -⟩ := hb.definitions
  exact (hb.mirrors hnew).resolve_eq (hb'.mirrors hnew) name

/-- A request for a named operation is one for the operation. -/
theorem buildOperationNamed_same (name : Name) :
    Same document (buildOperationNamed name : BuilderM schema Operation)
      (buildOperationNamed name) fun op op' => op.content = op'.content := by
  refine Same.get.bind ?_
  rintro b b' ⟨hb, hb'⟩
  rw [hb, hb']
  split
  · exact buildOperation_same schema document _
  · exact .throw

/-- A request for a document ends alike on all builders that are ready. -/
theorem buildDocument_same :
    Same document (buildDocument : BuilderM schema CompiledDocument) buildDocument
      fun c c' => List.Forall₂ (fun op op' => op.content = op'.content) c.operations c'.operations ∧
        List.Forall₂ (fun f f' => f.content = f'.content) c.fragments c'.fragments := by
  refine Same.get.bind ?_
  rintro b b' ⟨hb, hb'⟩
  rw [hb, hb']
  refine (Same.mapM fun d _ => buildOperation_same schema document d).bind fun ops ops' hops => ?_
  refine (Same.mapM fun d _ => buildFragment_same schema document _).bind fun fs fs' hfs => ?_
  exact .pure ⟨hops, hfs⟩

/-- Every request ends between requests. -/
theorem perform_meets (r : Request) :
    Meets document (r.perform : BuilderM schema Reply) (fun _ => True) fun _ => True := by
  cases r with
  | operation d => exact (buildOperation_meets schema document d).bind fun _ _ => .pure trivial
  | operationNamed name =>
    have hnamed : Meets document (buildOperationNamed name : BuilderM schema Operation)
        (fun _ => True) fun _ => True := by
      refine Meets.get.bind fun b hb => ?_
      split
      · exact buildOperation_meets schema document _
      · exact .throw trivial
    exact hnamed.bind fun _ _ => .pure trivial
  | fragment name => exact (buildFragment_meets schema document name).bind fun _ _ => .pure trivial
  | document =>
    have hwhole : Meets document (buildDocument : BuilderM schema CompiledDocument)
        (fun _ => True) fun _ => True := by
      refine Meets.get.bind fun b hb => ?_
      refine (Meets.mapM fun d _ => buildOperation_meets schema document d).bind fun ops _ => ?_
      refine (Meets.mapM fun d _ => buildFragment_meets schema document _).bind fun fs _ => ?_
      exact .pure trivial
    exact hwhole.bind fun _ _ => .pure trivial

/-- Every request gets the same reply on all builders that are ready. -/
theorem perform_same (r : Request) :
    Same document (r.perform : BuilderM schema Reply) r.perform Eq := by
  cases r with
  | operation d =>
    exact (buildOperation_same schema document d).bind fun _ _ h => .pure (by rw [h])
  | operationNamed name =>
    exact (buildOperationNamed_same schema document name).bind fun _ _ h => .pure (by rw [h])
  | fragment name =>
    exact (buildFragment_same schema document name).bind fun _ _ h => .pure (by rw [h])
  | document =>
    refine (buildDocument_same schema document).bind fun c c' h => .pure ?_
    have hops : c.operations.map (fun op => op.content) = c'.operations.map fun op => op.content :=
      List.forall₂_eq_eq_eq ▸ List.forall₂_map_left_iff.2 (List.forall₂_map_right_iff.2 h.1)
    have hfs : c.fragments.map (fun f => f.content) = c'.fragments.map fun f => f.content :=
      List.forall₂_eq_eq_eq ▸ List.forall₂_map_left_iff.2 (List.forall₂_map_right_iff.2 h.2)
    rw [hops, hfs]

end

variable {b b₀ : Builder schema}

/-- A builder is between requests after any history. -/
theorem After.standing {history : List Request} (h : After schema document history b) :
    b.Standing document := by
  induction h with
  | new h => exact (Standing.new h).1
  | request _ he ih => exact (perform_meets schema document _).standing ih he

/-- A new builder is ready. -/
theorem Ready.new (h : Builder.new schema document = .ok b) : b.Ready document := by
  obtain ⟨hstanding, hpoisoned, -⟩ := Standing.new h
  exact ⟨hstanding, hpoisoned⟩

/-- Work that ends alike on all builders that are ready succeeds on all of them or on none. -/
theorem Same.ok_iff {work : BuilderM schema α} {R : α → α → Prop}
    (h : Same document work work R) (hb : b.Ready document) (hb₀ : b₀.Ready document) :
    (∃ a b', work b = .ok a b') ↔ ∃ a b', work b₀ = .ok a b' := by
  constructor
  · rintro ⟨a, c, hw⟩
    have h := h b b₀ hb hb₀
    rw [hw] at h
    obtain ⟨-, a', c', hw', -⟩ := h
    exact ⟨a', c', hw'⟩
  · rintro ⟨a, c, hw⟩
    have h := h b₀ b hb₀ hb
    rw [hw] at h
    obtain ⟨-, a', c', hw', -⟩ := h
    exact ⟨a', c', hw'⟩

/-- A builder is ready again after work that succeeded on it. -/
theorem Same.ready {work : BuilderM schema α} {R : α → α → Prop} {b' : Builder schema} {a : α}
    (h : Same document work work R) (hb : b.Ready document) (hw : work b = .ok a b') :
    b'.Ready document := by
  have h := h b b hb hb
  rw [hw] at h
  exact h.1

/-- Requests for the elements of a list all succeed, one after the other, exactly if each succeeds
on its own. -/
theorem mapM_ok_iff {f : β → BuilderM schema α} {R : α → α → Prop} {l : List β}
    (h : ∀ c ∈ l, Same document (f c) (f c) R) (hb : b.Ready document) (hb₀ : b₀.Ready document) :
    (∃ rs b', l.mapM f b = .ok rs b') ↔ ∀ c ∈ l, ∃ r b', f c b₀ = .ok r b' := by
  induction l generalizing b with
  | nil =>
    rw [List.mapM_nil]
    exact ⟨fun _ => by simp, fun _ => ⟨[], b, rfl⟩⟩
  | cons c l ih =>
    have hc := h c (.head _)
    have hl := fun c' hc' => h c' (List.mem_cons_of_mem _ hc')
    rw [List.mapM_cons, List.forall_mem_cons, ← hc.ok_iff hb hb₀]
    constructor
    · rintro ⟨rs, b', hw⟩
      obtain ⟨r, b₁, h₁, hw⟩ := ok_of_bind hw
      obtain ⟨rs', b₂, h₂, hw⟩ := ok_of_bind hw
      exact ⟨⟨r, b₁, h₁⟩, (ih hl (hc.ready hb h₁)).1 ⟨rs', b₂, h₂⟩⟩
    · rintro ⟨⟨r, b₁, h₁⟩, hrest⟩
      obtain ⟨rs, b₂, h₂⟩ := (ih hl (hc.ready hb h₁)).2 hrest
      refine ⟨r :: rs, b₂, ?_⟩
      rw [bind_of_ok h₁, bind_of_ok h₂]
      rfl

/-- A document is built exactly if each of its definitions is built on its own. -/
theorem buildDocument_ok_iff (hb : b.Ready document) (hb₀ : b₀.Ready document) :
    (∃ c b', buildDocument b = .ok c b') ↔
      (∀ d ∈ document.operations, ∃ op b', buildOperation d b₀ = .ok op b') ∧
        ∀ d ∈ document.fragments, ∃ f b', buildFragment d.name b₀ = .ok f b' := by
  have hop : ∀ d ∈ document.operations, Same document
      (buildOperation d : BuilderM schema Operation) (buildOperation d) _ :=
    fun d _ => buildOperation_same schema document d
  have hfrag : ∀ d ∈ document.fragments, Same document
      (buildFragment d.name : BuilderM schema Fragment) (buildFragment d.name) _ :=
    fun d _ => buildFragment_same schema document d.name
  rw [← mapM_ok_iff hop hb hb₀]
  constructor
  · rintro ⟨c, b', hw⟩
    obtain ⟨_, _, h₀, hw⟩ := ok_of_bind hw
    cases h₀
    rw [hb.same] at hw
    obtain ⟨ops, b₁, h₁, hw⟩ := ok_of_bind hw
    obtain ⟨fs, b₂, h₂, hw⟩ := ok_of_bind hw
    exact ⟨⟨ops, b₁, h₁⟩, (mapM_ok_iff hfrag ((Same.mapM hop).ready hb h₁) hb₀).1 ⟨fs, b₂, h₂⟩⟩
  · rintro ⟨⟨ops, b₁, h₁⟩, hfs⟩
    obtain ⟨fs, b₂, h₂⟩ := (mapM_ok_iff hfrag ((Same.mapM hop).ready hb h₁) hb₀).2 hfs
    refine ⟨⟨fs, ops⟩, b₂, ?_⟩
    show (b.document.operations.mapM buildOperation >>= _) b = _
    rw [hb.same, bind_of_ok h₁, bind_of_ok h₂]
    rfl

end Builder

/-! ## Requests whose history does not show -/

/-- A registry with nothing under construction, whatever its history, resolves a name and compiles
an operation to the same content, or fails with the same error, as a new registry with the same
definitions. A builder that is not poisoned, whatever was requested before, replies to every request
as a new builder for the document does, and it builds the whole document exactly if a new builder
builds each operation and each fragment of it. -/
theorem memo_invisible (schema : Schema) :
    (∀ run : Run schema, run.Live → run.registry.inProgress = ∅ →
      (∀ name, (outcome (RunM.resolve name run)).map (·.content) =
        (outcome (RunM.resolve name run.restart)).map (·.content)) ∧
      ∀ d, (outcome (RunM.operation d run)).map (·.content) =
        (outcome (RunM.operation d run.restart)).map (·.content)) ∧
    ∀ (document : Document) (history : List Request) (b b₀ : Builder schema),
      Builder.After schema document history b → b.poisoned = false →
      Builder.new schema document = .ok b₀ →
      (∀ request : Request, outcome (request.perform b) = outcome (request.perform b₀)) ∧
      ((∃ c b', Builder.buildDocument b = .ok c b') ↔
        (∀ d ∈ document.operations, ∃ op b', Builder.buildOperation d b₀ = .ok op b') ∧
          ∀ d ∈ document.fragments, ∃ f b', Builder.buildFragment d.name b₀ = .ok f b') := by
  constructor
  · intro run hlive hidle
    have hmirrors : run.Mirrors run.registry.definitions ∅ := hidle ▸ hlive.mirrors
    have hrestart := hlive.kept.mirrors_restart
    exact ⟨hmirrors.resolve_eq hrestart, hmirrors.operation_eq hrestart⟩
  · intro document history b b₀ hafter hpoisoned hnew
    have hb : b.Ready document := ⟨hafter.standing, hpoisoned⟩
    have hb₀ : b₀.Ready document := .new hnew
    refine ⟨fun request => ?_, Builder.buildDocument_ok_iff hb hb₀⟩
    have hsame := Builder.perform_same schema document request b b₀ hb hb₀
    cases hr : request.perform b with
    | ok reply b' =>
      rw [hr] at hsame
      obtain ⟨-, reply', b₀', hr₀, -, hreply⟩ := hsame
      rw [hr₀, hreply]
      rfl
    | error e b' =>
      rw [hr] at hsame
      obtain ⟨b₀', hr₀⟩ := hsame
      rw [hr₀]
      rfl

end

namespace Sample

/-- A fragment that was compiled before is compiled to the same content again, and the document
after one of its operations as by a new builder. -/
theorem memo_unnoticed :
    (∃ f run', RunM.resolveWithin 1 "Parts" run = .ok f run' ∧ run'.Live ∧
      run'.registry.inProgress = ∅ ∧
      (outcome (RunM.resolve "Parts" run')).map (·.content) =
        (outcome (RunM.resolve "Parts" run'.restart)).map (·.content)) ∧
    ∃ b₀ op b, Builder.new schema document = .ok b₀ ∧
      Builder.buildOperation operation b₀ = .ok op b ∧
      Builder.After schema document [.operation operation] b ∧ b.poisoned = false ∧
      outcome (Request.document.perform b) = outcome (Request.document.perform b₀) := by
  obtain ⟨hregistry, hbuilder⟩ := memo_invisible schema
  constructor
  · obtain ⟨⟨f, run'⟩, hr⟩ := Option.isSome_iff_exists.1 resolve_isSome
    have hcall : RunM.resolveWithin 1 "Parts" run = .ok f run' := returned?_eq_some hr
    have hlive : run'.Live := run_live.step (.resolved (.inl ⟨f, hcall⟩))
    have hlead : run.Leads "Parts" (RunM.resolveWithin 1 "Parts" run) :=
      resolveWithin_kept run_live.kept
    rw [hcall] at hlead
    have hidle : run'.registry.inProgress = ∅ := hlead.2.1.inProgress
    exact ⟨f, run', hcall, hlive, hidle, (hregistry run' hlive hidle).1 "Parts"⟩
  · obtain ⟨b₀, type, op, b, hnew, -, hop, -⟩ := unit_eq
    have hperform : (Request.operation operation).perform b₀ = .ok (.operation op.content) b :=
      bind_of_ok hop
    have hafter : Builder.After schema document [.operation operation] b :=
      .request (.new hnew) (.inl ⟨_, hperform⟩)
    have hpoisoned : b.poisoned = false :=
      ((Builder.buildOperation_same schema document operation).ready (.new hnew) hop).unpoisoned
    exact ⟨b₀, op, b, hnew, hop, hafter, hpoisoned,
      (hbuilder document _ b b₀ hafter hpoisoned hnew).1 .document⟩

end Sample

end EntityGraph
