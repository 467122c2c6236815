import EntityGraph.Proofs.Request.Replies
import EntityGraph.Proofs.Walk.LookUps
import Mathlib.Data.List.Induction

/-!
# Poisoned builders

A failed request poisons its builder, and whatever is compiled is first guarded against a poisoned
builder. What can be said before anything is compiled is not guarded: that the document has no
operation of a name, and that a document without definitions is built. `Request.refusal` says for
each request what a poisoned builder replies to it. A builder that is not poisoned never replies so
on its own (`Builder.Candid`), since no compilation fails in the name of the builder. Main statement:
`Builder.poisoned_for_good`, that a builder is poisoned from its first failure on and then stays as
it is.
-/

namespace EntityGraph

section
variable {schema : Schema} {document : Document} {α β : Type}

/-! ## Failures of compilations -/

/-- The failure is not one of the builder's own: it is neither poisoned, nor asked for an operation
that its document does not have. -/
def BuildError.OfCompilation (e : BuildError) : Prop :=
  e ≠ .poisoned ∧ ∀ name, e ≠ .unknownOperation name

/-- Walks do not fail in the name of a builder. -/
theorem BuildError.OfWalks.ofCompilation :
    OfWalks (fun _ _ => True) BuildError.OfCompilation where
  lookup e := by cases e <;> exact ⟨nofun, nofun⟩
  conflict _ _ _ _ := ⟨nofun, nofun⟩
  field _ _ _ _ := ⟨nofun, nofun⟩
  fragment _ := ⟨nofun, nofun⟩
  cycle _ := ⟨nofun, nofun⟩
  root _ := ⟨nofun, nofun⟩

namespace Builder

/-! ## Requests that are answered -/

/-- On a builder that is ready the work leaves a builder that is ready, unless it fails. Its failure
poisons the builder if it is that of a compilation, and else is about an unknown operation. -/
def Candid (document : Document) (work : BuilderM schema α) : Prop :=
  ∀ b, b.Ready document →
    match work b with
    | .ok _ b' => b'.Ready document
    | .error e b' => e.OfCompilation ∧ b'.poisoned = true ∨
        (∃ name, e = .unknownOperation name) ∧ b'.poisoned = false

namespace Candid

/-- A value that is returned. -/
theorem pure (a : α) : Candid document (Pure.pure a : BuilderM schema α) := fun _ hb => hb

/-- A sequence. -/
theorem bind {work : BuilderM schema α} {next : α → BuilderM schema β}
    (h₁ : Candid document work) (h₂ : ∀ a, Candid document (next a)) :
    Candid document (work >>= next) := by
  intro b hb
  have h := h₁ b hb
  split at h
  · next a b' hw =>
    rw [bind_of_ok hw]
    exact h₂ a b' h
  · next e b' hw =>
    rw [bind_of_error hw]
    exact h

/-- Requests for the elements of a list. -/
theorem mapM {f : α → BuilderM schema β} {l : List α} (h : ∀ a, Candid document (f a)) :
    Candid document (l.mapM f) := by
  induction l with
  | nil =>
    rw [List.mapM_nil]
    exact .pure _
  | cons a l ih =>
    rw [List.mapM_cons]
    exact (h a).bind fun _ => ih.bind fun _ => .pure _

/-- A compilation, which fails only with failures of its own. -/
theorem guarded {work : RunM schema α}
    (hmeets : Meets document (Builder.guarded work) (fun _ => True) fun _ => True)
    (hfails : RunM.Fails (Registry.Sound document fun _ => True) BuildError.OfCompilation work) :
    Candid document (Builder.guarded work) := by
  intro b hb
  have hmeets := hmeets b hb.toStanding
  cases hw : work b.run with
  | ok a run =>
    rw [guarded_of_ok hb.unpoisoned hw] at hmeets ⊢
    exact ⟨hmeets.1, hb.unpoisoned⟩
  | error e run =>
    rw [guarded_of_error hb.unpoisoned hw]
    exact .inl ⟨hfails b.run e run hb.sound hw, rfl⟩

end Candid

section
variable (hs : schema.Coherent)
include hs

/-- A request for a fragment. -/
theorem buildFragment_candid (name : Name) :
    Candid document (buildFragment name : BuilderM schema Fragment) :=
  .guarded (buildFragment_meets schema document name)
    (resolve_fails .ofCompilation hs fun _ _ _ _ _ _ _ => trivial)

/-- A request for an operation. -/
theorem buildOperation_candid (d : OperationDefinition) :
    Candid document (buildOperation d : BuilderM schema Operation) :=
  .guarded (buildOperation_meets schema document d)
    (operation_fails .ofCompilation hs (fun _ _ _ _ _ _ _ => trivial) fun _ _ _ _ _ _ => trivial)

/-- Every request. -/
theorem perform_candid (r : Request) : Candid document (r.perform : BuilderM schema Reply) := by
  have hget : Candid document (get : BuilderM schema (Builder schema)) := fun _ hb => hb
  cases r with
  | operation d => exact (buildOperation_candid hs d).bind fun _ => .pure _
  | operationNamed name =>
    refine Candid.bind (hget.bind fun b => ?_) fun _ => .pure _
    split
    · exact buildOperation_candid hs _
    · exact fun b hb => .inr ⟨⟨name, rfl⟩, hb.unpoisoned⟩
  | fragment name => exact (buildFragment_candid hs name).bind fun _ => .pure _
  | document =>
    refine Candid.bind (hget.bind fun b => ?_) fun _ => .pure _
    refine (Candid.mapM (buildOperation_candid hs)).bind fun _ => ?_
    exact (Candid.mapM fun _ => buildFragment_candid hs _).bind fun _ => .pure _

end

end Builder

/-! ## Requests that are refused -/

/-- What a poisoned builder of the document `d` replies: it refuses, unless nothing would have to be
compiled. -/
def Request.refusal (d : Document) : Request → Except BuildError Reply
  | .operation _ => .error .poisoned
  | .operationNamed name =>
    if (d.operation? name).isSome then .error .poisoned else .error (.unknownOperation name)
  | .fragment _ => .error .poisoned
  | .document =>
    if d.operations = [] ∧ d.fragments = [] then .ok (.document [] []) else .error .poisoned

namespace Builder

variable {b : Builder schema}

/-- Of requests that are all refused the first one is. -/
theorem mapM_of_error {f : α → BuilderM schema β} {e : BuildError} (h : ∀ a, f a b = .error e b)
    {l : List α} (hl : l ≠ []) : l.mapM f b = .error e b := by
  obtain ⟨a, l, rfl⟩ := List.exists_cons_of_ne_nil hl
  rw [List.mapM_cons]
  exact bind_of_error (h a)

/-- A request to a poisoned builder is refused and leaves the builder as it is. -/
theorem perform_of_poisoned (hp : b.poisoned = true) (r : Request) :
    outcome (r.perform b) = r.refusal b.document ∧ after (r.perform b) = b := by
  have hop (d : OperationDefinition) : buildOperation d b = .error .poisoned b :=
    guarded_of_poisoned hp
  have hfrag (name : Name) : buildFragment name b = .error .poisoned b := guarded_of_poisoned hp
  have hrefused {e : BuildError} (h : r.perform b = .error e b)
      (hr : r.refusal b.document = .error e) :
      outcome (r.perform b) = r.refusal b.document ∧ after (r.perform b) = b := by
    rw [h, hr]
    exact ⟨rfl, rfl⟩
  cases r with
  | operation d => exact hrefused (bind_of_error (hop d)) rfl
  | fragment name => exact hrefused (bind_of_error (hfrag name)) rfl
  | operationNamed name =>
    have hnamed := buildOperationNamed_eq name b
    cases h : b.document.operation? name with
    | some d =>
      rw [h] at hnamed
      exact hrefused (bind_of_error (hnamed.trans (hop d))) (by simp [Request.refusal, h])
    | none =>
      rw [h] at hnamed
      exact hrefused (bind_of_error hnamed) (by simp [Request.refusal, h])
  | document =>
    by_cases hempty : b.document.operations = [] ∧ b.document.fragments = []
    · have hbuilt : Request.document.perform b = .ok (.document [] []) b := by
        show ((b.document.operations.mapM buildOperation >>= fun operations =>
          (b.document.fragments.mapM fun d => buildFragment d.name) >>= fun fragments =>
            pure (CompiledDocument.mk fragments operations)) >>= _) b = _
        rw [hempty.1, hempty.2, List.mapM_nil, List.mapM_nil]
        rfl
      rw [hbuilt]
      exact ⟨(if_pos hempty).symm, rfl⟩
    · refine hrefused (bind_of_error ?_) (if_neg hempty)
      show (b.document.operations.mapM buildOperation >>= _) b = _
      by_cases hops : b.document.operations = []
      · have hfrags : b.document.fragments ≠ [] := fun h => hempty ⟨hops, h⟩
        rw [hops, List.mapM_nil, pure_bind]
        exact bind_of_error (mapM_of_error (fun d => hfrag d.name) hfrags)
      · exact bind_of_error (mapM_of_error hop hops)

end Builder

/-! ## Histories of requests -/

/-- The request fails on the builder, and not because the document has no operation of the name. -/
def Request.Poisons (r : Request) (b : Builder schema) : Prop :=
  ∃ e, outcome (r.perform b) = .error e ∧ ∀ name, e ≠ .unknownOperation name

namespace Builder

/-- The builder after requests, one after the other, however they end. -/
def serve (b : Builder schema) (history : List Request) : Builder schema :=
  history.foldl (fun b r => after (r.perform b)) b

variable {b b₀ : Builder schema}

@[simp] theorem serve_nil : b.serve [] = b := rfl

theorem serve_append (history later : List Request) :
    b.serve (history ++ later) = (b.serve history).serve later := List.foldl_append ..

theorem serve_concat (history : List Request) (r : Request) :
    b.serve (history ++ [r]) = after (r.perform (b.serve history)) := by
  rw [serve_append]
  rfl

/-- A poisoned builder serves no more. -/
theorem serve_of_poisoned (hp : b.poisoned = true) (later : List Request) : b.serve later = b := by
  induction later with
  | nil => rfl
  | cons r later ih =>
    show (after (r.perform b)).serve later = b
    rw [(perform_of_poisoned hp r).2, ih]

/-- Between any two requests. -/
theorem Standing.serve (hb : b.Standing document) (history : List Request) :
    (b.serve history).Standing document := by
  induction history generalizing b with
  | nil => exact hb
  | cons r history ih =>
    have hnext := perform_meets schema document r b hb
    show ((after (r.perform b)).serve history).Standing document
    cases hr : r.perform b with
    | ok reply b' =>
      rw [hr] at hnext
      exact ih hnext.1
    | error e b' =>
      rw [hr] at hnext
      exact ih hnext.1

/-- No request that is answered is refused. -/
theorem Ready.outcome_ne_poisoned (hs : schema.Coherent) (hb : b.Ready document) (r : Request) :
    outcome (r.perform b) ≠ .error .poisoned := by
  have hcandid := perform_candid hs r b hb
  intro hrefused
  cases hr : r.perform b with
  | ok reply b' =>
    rw [hr] at hrefused
    cases hrefused
  | error e b' =>
    rw [hr] at hrefused hcandid
    cases hrefused
    obtain ⟨⟨hne, -⟩, -⟩ | ⟨⟨name, he⟩, -⟩ := hcandid
    · exact hne rfl
    · cases he

/-- One request: a builder is poisoned after it if it was before, or the request poisons it. -/
theorem Standing.poisoned_after_iff (hs : schema.Coherent) (hb : b.Standing document)
    (r : Request) : (after (r.perform b)).poisoned = true ↔ b.poisoned = true ∨ r.Poisons b := by
  by_cases hp : b.poisoned = true
  · rw [(perform_of_poisoned hp r).2]
    exact ⟨.inl, fun _ => hp⟩
  have hcandid := perform_candid hs r b ⟨hb, Bool.eq_false_iff.2 hp⟩
  unfold Request.Poisons
  cases hr : r.perform b with
  | ok reply b' =>
    rw [hr] at hcandid
    simp [after, outcome, hp, hcandid.unpoisoned]
  | error e b' =>
    rw [hr] at hcandid
    obtain ⟨⟨-, he⟩, hp'⟩ | ⟨⟨name, rfl⟩, hp'⟩ := hcandid
    · exact ⟨fun _ => .inr ⟨e, rfl, he⟩, fun _ => hp'⟩
    · simp [after, outcome, hp, hp']

/-- Any number of requests: a builder is poisoned by the first one that poisons it. -/
theorem Ready.poisoned_serve_iff (hs : schema.Coherent) (hb : b.Ready document)
    (history : List Request) :
    (b.serve history).poisoned = true ↔
      ∃ before r, before ++ [r] <+: history ∧ r.Poisons (b.serve before) := by
  induction history using List.reverseRecOn with
  | nil => simp [hb.unpoisoned]
  | append_singleton history r ih =>
    have hstep := (hb.toStanding.serve history).poisoned_after_iff hs r
    rw [serve_concat, hstep, ih]
    constructor
    · rintro (⟨before, r', hprefix, h⟩ | h)
      · exact ⟨before, r', hprefix.trans (List.prefix_append ..), h⟩
      · exact ⟨history, r, List.prefix_rfl, h⟩
    · rintro ⟨before, r', hprefix, h⟩
      obtain heq | hprefix := List.prefix_concat_iff.1 hprefix
      · obtain ⟨rfl, hr⟩ := List.append_inj' heq rfl
        cases hr
        exact .inr h
      · exact .inl ⟨before, r', hprefix, h⟩

/-- A new builder, after any requests, is poisoned exactly if one of them failed on it, and not
because the document has no operation of the name. From then on nothing about the builder changes,
and it refuses every request as `Request.refusal` says: it replies that it is poisoned, unless the
document does not have the operation that is asked for by name, or the whole of a document without
definitions is asked for. Until then it replies to no request that it is poisoned. -/
theorem poisoned_for_good (hs : schema.Built) (hnew : Builder.new schema document = .ok b₀)
    (history : List Request) :
    ((b₀.serve history).poisoned = true ↔
      ∃ before r, before ++ [r] <+: history ∧ r.Poisons (b₀.serve before)) ∧
    ((b₀.serve history).poisoned = true →
      (∀ later, b₀.serve (history ++ later) = b₀.serve history) ∧
      ∀ r : Request, outcome (r.perform (b₀.serve history)) = r.refusal document) ∧
    ((b₀.serve history).poisoned = false →
      ∀ r : Request, outcome (r.perform (b₀.serve history)) ≠ .error .poisoned) := by
  have hready : b₀.Ready document := .new hnew
  have hstanding := hready.toStanding.serve history
  refine ⟨hready.poisoned_serve_iff hs.coherent history, fun hp => ⟨fun later => ?_, fun r => ?_⟩,
    fun hp r => ?_⟩
  · rw [serve_append, serve_of_poisoned hp]
  · rw [(perform_of_poisoned hp r).1, hstanding.same]
  · exact Ready.outcome_ne_poisoned hs.coherent ⟨hstanding, hp⟩ r

end Builder

end

namespace Sample

/-- A builder that was asked for a fragment that there is not stays poisoned: it refuses a fragment
that there is, but still tells that there is no operation of a name. -/
theorem poisoned_by_fragment :
    ∃ b₀, Builder.new schema document = .ok b₀ ∧
      (b₀.serve [.fragment "Missing"]).poisoned = true ∧
      b₀.serve ([.fragment "Missing"] ++ [.document]) = b₀.serve [.fragment "Missing"] ∧
      outcome ((Request.fragment "Parts").perform (b₀.serve [.fragment "Missing"])) =
        .error .poisoned ∧
      outcome ((Request.operationNamed "Missing").perform (b₀.serve [.fragment "Missing"])) =
        .error (.unknownOperation "Missing") := by
  obtain ⟨b₀, -, -, -, hnew, -⟩ := unit_eq
  have hp : (Builder.new schema document).toOption.map
      (fun b => (b.serve [.fragment "Missing"]).poisoned) = some true := by decide +kernel
  rw [hnew] at hp
  have hp : (b₀.serve [.fragment "Missing"]).poisoned = true := Option.some.inj hp
  obtain ⟨hlater, hrefused⟩ :=
    (Builder.poisoned_for_good built hnew [.fragment "Missing"]).2.1 hp
  exact ⟨b₀, hnew, hp, hlater _, hrefused _, hrefused _⟩

end Sample

end EntityGraph
