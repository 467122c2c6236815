/-!
# Work that may fail

How sequences and loops end, for work without a state (`Except`) and for work on a state
(`EStateM`). A sequence succeeds exactly if both parts do, and it fails where the first part that
fails does. How work ended and what state it left are looked at apart (`outcome`, `after`).
-/

namespace EntityGraph

/-! ## Work without a state -/

namespace Except

variable {ε α β : Type}

/-- A sequence that succeeds is made of two parts that succeed. -/
theorem ok_of_bind {x : Except ε α} {f : α → Except ε β} {b : β} (h : (x >>= f) = .ok b) :
    ∃ a, x = .ok a ∧ f a = .ok b := by
  cases x with
  | error => cases h
  | ok a => exact ⟨a, rfl, h⟩

/-- A sequence succeeds exactly if both parts do. -/
theorem bind_eq_ok_iff {x : Except ε α} {f : α → Except ε β} {b : β} :
    (x >>= f) = .ok b ↔ ∃ a, x = .ok a ∧ f a = .ok b := by
  refine ⟨ok_of_bind, ?_⟩
  rintro ⟨a, rfl, h⟩
  exact h

/-- A check and what follows it succeed exactly if both do. -/
theorem unit_bind_eq_ok_iff {x : Except ε Unit} {f : Unit → Except ε β} {b : β} :
    (x >>= f) = .ok b ↔ x = .ok () ∧ f () = .ok b := by
  rw [bind_eq_ok_iff]
  exact ⟨fun ⟨_, h⟩ => h, fun h => ⟨(), h⟩⟩

/-- A check that succeeds for a list succeeds for its elements. -/
theorem ok_of_forM {f : α → Except ε Unit} :
    ∀ {l : List α} {u : Unit}, l.forM f = .ok u → ∀ a ∈ l, f a = .ok ()
  | [], _, _, _, ha => nomatch ha
  | _ :: _, _, h, a, ha => by
    obtain ⟨_, h₁, h₂⟩ := ok_of_bind h
    cases ha with
    | head => exact h₁
    | tail _ ha => exact ok_of_forM h₂ a ha

/-- A list is checked exactly if each element is. -/
theorem forM_eq_ok_iff {f : α → Except ε Unit} {l : List α} :
    l.forM f = .ok () ↔ ∀ a ∈ l, f a = .ok () := by
  refine ⟨ok_of_forM, fun h => ?_⟩
  induction l with
  | nil => rfl
  | cons a l ih =>
    change (f a >>= fun _ => l.forM f) = _
    rw [h a (.head _)]
    exact ih fun b hb => h b (List.mem_cons_of_mem _ hb)

/-- A loop succeeds exactly if its first step and the others do. -/
theorem foldlM_cons_ok_iff {f : β → α → Except ε β} {a : α} {l : List α} {b b' : β} :
    (a :: l).foldlM f b = .ok b' ↔ ∃ b₁, f b a = .ok b₁ ∧ l.foldlM f b₁ = .ok b' := by
  rw [List.foldlM_cons, bind_eq_ok_iff]

/-- What every step of a loop keeps, the loop keeps. -/
theorem foldlM_keeps {f : β → α → Except ε β} {P : β → Prop}
    (step : ∀ b a b', P b → f b a = .ok b' → P b') :
    ∀ {l : List α} {b b' : β}, P b → l.foldlM f b = .ok b' → P b'
  | [], _, _, hb, h => by
    cases h
    exact hb
  | a :: l, b, b', hb, h => by
    obtain ⟨b₁, h₁, h₂⟩ := foldlM_cons_ok_iff.1 h
    exact foldlM_keeps step (step b a b₁ hb h₁) h₂

end Except

/-! ## Work on a state -/

section
variable {ε σ α β : Type} {x : EStateM ε σ α} {f : α → EStateM ε σ β} {a : α} {b : β} {e : ε}
  {s s' : σ}

/-- A sequence goes on where its first part ends. -/
theorem bind_of_ok (h : x s = .ok a s') : (x >>= f) s = f a s' := by
  change EStateM.bind x f s = _
  rw [EStateM.bind, h]

/-- A sequence ends where its first part fails. -/
theorem bind_of_error (h : x s = .error e s') : (x >>= f) s = .error e s' := by
  change EStateM.bind x f s = _
  rw [EStateM.bind, h]

/-- A sequence that succeeds is made of two parts that succeed. -/
theorem ok_of_bind (h : (x >>= f) s = .ok b s') : ∃ a s₁, x s = .ok a s₁ ∧ f a s₁ = .ok b s' := by
  cases hx : x s with
  | ok a s₁ => exact ⟨a, s₁, rfl, (bind_of_ok hx).symm.trans h⟩
  | error e s₁ => cases (bind_of_error hx).symm.trans h

/-- A sequence that fails does so in its first or in its second part. -/
theorem error_of_bind (h : (x >>= f) s = .error e s') :
    x s = .error e s' ∨ ∃ a s₁, x s = .ok a s₁ ∧ f a s₁ = .error e s' := by
  cases hx : x s with
  | ok a s₁ => exact .inr ⟨a, s₁, rfl, (bind_of_ok hx).symm.trans h⟩
  | error e' s₁ =>
    cases (bind_of_error hx).symm.trans h
    exact .inl rfl

/-- A sequence succeeds exactly if both parts do. -/
theorem EStateM.bind_eq_ok_iff :
    (x >>= f) s = .ok b s' ↔ ∃ a s₁, x s = .ok a s₁ ∧ f a s₁ = .ok b s' := by
  refine ⟨ok_of_bind, ?_⟩
  rintro ⟨a, s₁, hx, hf⟩
  exact (bind_of_ok hx).trans hf

/-- How work ended, without the state that it left. -/
def outcome : EStateM.Result ε σ α → Except ε α
  | .ok a _ => .ok a
  | .error e _ => .error e

/-- The state that work left, however it ended. -/
def after : EStateM.Result ε σ α → σ
  | .ok _ s => s
  | .error _ s => s

/-- Work that is seen to end well returned something that is seen so. -/
theorem outcome_map_eq_ok {r : EStateM.Result ε σ α} {view : α → β} {b : β} :
    (outcome r).map view = .ok b ↔ ∃ a s, r = .ok a s ∧ view a = b := by
  cases r with
  | ok a s => simp [outcome, Except.map]
  | error e s => simp [outcome, Except.map]

end

end EntityGraph
