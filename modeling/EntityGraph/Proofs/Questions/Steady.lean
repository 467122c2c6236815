import EntityGraph.Build.Visit
import EntityGraph.Proofs.Entity.Merging

/-!
# Questions are answered the same in every state

Asking a question fills the memo and lengthens the log, and neither shows in a later answer. A
question that ends in the same way whatever was asked before is `Steady`; so is everything that is
made of steady questions. All that compiling asks of a schema is steady, from the possible types of
a name up to the merging of a field (`Entity.mergeField_steady`) and the normal form of selections
(`Selection.normalizeAll_steady`). On the way nothing is reported as built, which is the other half
of `Steady`.
-/

namespace EntityGraph

/-- Whether the event says that the fragment `name` was built. -/
def Event.builds (name : Name) : Event → Bool
  | .builtFragment n _ => n = name
  | _ => false

/-- How often the log says that the fragment `name` was built. -/
def timesBuilt (log : Log) (name : Name) : Nat := log.countP (Event.builds name)

/-- Only events that say so count. -/
theorem timesBuilt_cons (event : Event) (log : Log) (name : Name) :
    timesBuilt (event :: log) name = timesBuilt log name + if event.builds name then 1 else 0 :=
  List.countP_cons ..

namespace LookupM

variable {schema : Schema} {ε α β : Type}

/-- The question ends in the same way in every state, and reports nothing as built. -/
structure Steady (q : LookupM schema ε α) : Prop where
  same : ∀ s t, outcome (q s) = outcome (q t)
  quiet : ∀ s name, timesBuilt (after (q s)).log name = timesBuilt s.log name

namespace Steady

/-- A value that is returned. -/
theorem pure (a : α) : Steady (Pure.pure a : LookupM schema ε α) :=
  ⟨fun _ _ => rfl, fun _ _ => rfl⟩

/-- A failure. -/
theorem throw (e : ε) : Steady (MonadExcept.throw e : LookupM schema ε α) :=
  ⟨fun _ _ => rfl, fun _ _ => rfl⟩

/-- A sequence of two questions. -/
theorem bind {q : LookupM schema ε α} {f : α → LookupM schema ε β} (hq : Steady q)
    (hf : ∀ a, Steady (f a)) : Steady (q >>= f) := by
  refine ⟨fun s t => ?_, fun s name => ?_⟩
  · have hsame := hq.same s t
    cases hs : q s <;> cases ht : q t <;> rw [hs, ht] at hsame <;> cases hsame
    · rw [bind_of_ok hs, bind_of_ok ht]
      exact (hf _).same _ _
    · rw [bind_of_error hs, bind_of_error ht]
      rfl
  · have hquiet := hq.quiet s name
    cases hs : q s <;> rw [hs] at hquiet
    · rw [bind_of_ok hs]
      exact ((hf _).quiet _ name).trans hquiet
    · rw [bind_of_error hs]
      exact hquiet

/-- A loop of checks. -/
theorem forM {f : α → LookupM schema ε PUnit} :
    ∀ {l : List α}, (∀ a, Steady (f a)) → Steady (l.forM f)
  | [], _ => .pure _
  | _ :: _, h => .bind (h _) fun _ => forM h

/-- A loop that carries a value along. -/
theorem foldlM {f : β → α → LookupM schema ε β} (h : ∀ b a, Steady (f b a)) :
    ∀ {l : List α} {b : β}, Steady (l.foldlM f b)
  | [], _ => .pure _
  | _ :: _, _ => .bind (h _ _) fun _ => foldlM h

/-- The answers for the elements of a list, one after the other. -/
theorem mapM {f : α → LookupM schema ε β} (h : ∀ a, Steady (f a)) :
    ∀ {l : List α}, Steady (l.mapM f)
  | [] => by rw [List.mapM_nil]; exact .pure _
  | _ :: _ => by
    rw [List.mapM_cons]
    exact .bind (h _) fun _ => .bind (mapM h) fun _ => .pure _

/-- A choice between two questions. -/
theorem ite {p : Prop} [Decidable p] {q q' : LookupM schema ε α} (h : Steady q)
    (h' : Steady q') : Steady (if p then q else q') := by
  split
  · exact h
  · exact h'

/-- What is answered once is always answered. -/
theorem answers {q : LookupM schema ε α} (hq : Steady q) {a : α} (h : Gives q a) :
    Answers q a := by
  obtain ⟨s, s', h⟩ := h
  intro t
  have hsame := hq.same s t
  rw [h] at hsame
  cases ht : q t <;> rw [ht] at hsame <;> cases hsame
  exact ⟨_, rfl⟩

/-- A steady question has one answer. -/
theorem unique {q : LookupM schema ε α} (hq : Steady q) {a b : α} (ha : Gives q a)
    (hb : Gives q b) : a = b := by
  obtain ⟨s, s', hb⟩ := hb
  obtain ⟨s'', ha⟩ := hq.answers ha s
  rw [ha] at hb
  cases hb
  rfl

/-- A question asked as part of a build. -/
theorem asked {q : LookupM schema LookupError α} (hq : Steady q) : Steady q.asked := by
  refine ⟨fun s t => ?_, fun s name => ?_⟩
  · have hsame := hq.same s t
    unfold LookupM.asked
    cases hs : q s <;> cases ht : q t <;> rw [hs, ht] at hsame <;> cases hsame <;> rfl
  · have hquiet := hq.quiet s name
    unfold LookupM.asked
    cases hs : q s <;> rw [hs] at hquiet <;> exact hquiet

end Steady

/-! ## Composed answers -/

/-- A value that is returned is always the answer. -/
theorem Answers.pure (a : α) : Answers (Pure.pure a : LookupM schema ε α) a :=
  fun s => ⟨s, rfl⟩

/-- A sequence of questions that are always answered is always answered. -/
theorem Answers.bind {q : LookupM schema ε α} {f : α → LookupM schema ε β} {a : α} {b : β}
    (hq : Answers q a) (hf : Answers (f a) b) : Answers (q >>= f) b := by
  intro s
  obtain ⟨s₁, h₁⟩ := hq s
  obtain ⟨s₂, h₂⟩ := hf s₁
  exact ⟨s₂, (bind_of_ok h₁).trans h₂⟩

/-- Questions for the elements of a list that are always answered. -/
theorem Answers.mapM {f : α → LookupM schema ε β} :
    ∀ {l : List α}, (∀ a ∈ l, ∃ b, Answers (f a) b) → ∃ bs, Answers (l.mapM f) bs
  | [], _ => ⟨[], by rw [List.mapM_nil]; exact .pure _⟩
  | a :: l, h => by
    obtain ⟨b, hb⟩ := h a (.head _)
    obtain ⟨bs, hbs⟩ := Answers.mapM fun a' ha' => h a' (List.mem_cons_of_mem _ ha')
    exact ⟨b :: bs, by rw [List.mapM_cons]; exact hb.bind (hbs.bind (.pure _))⟩

/-- Checks for the elements of a list that always succeed. -/
theorem Answers.forM {f : α → LookupM schema ε PUnit} :
    ∀ {l : List α}, (∀ a ∈ l, Answers (f a) ⟨⟩) → Answers (l.forM f) ⟨⟩
  | [], _ => .pure _
  | a :: _, h => (h a (.head _)).bind (Answers.forM fun b hb => h b (List.mem_cons_of_mem _ hb))

/-- A question that is asked as part of a build is answered as well. -/
theorem Answers.asked {q : LookupM schema LookupError α} {a : α} (h : Answers q a) :
    Answers q.asked a := by
  intro s
  obtain ⟨s', hs⟩ := h s
  refine ⟨s', ?_⟩
  unfold LookupM.asked
  rw [hs]

/-- What is always answered has the answer. -/
theorem Answers.gives {q : LookupM schema ε α} {a : α} (h : Answers q a) : Gives q a :=
  ⟨.fresh schema, h (.fresh schema)⟩

/-- A report is always made. -/
theorem report_answers {event : Event} : Answers (report event : LookupM schema ε Unit) () :=
  fun _ => ⟨_, rfl⟩

/-- A type that the schema keeps is always found. -/
theorem type_answers {c : Name} {t : NamedType} (h : schema.types.find? c = some t) :
    Answers (LookupM.type c : LookupM schema LookupError NamedType) t := by
  intro s
  refine ⟨s, ?_⟩
  unfold LookupM.type Schema.type
  rw [h]
  rfl

/-- On composite types the question about an intersection always gets an answer. -/
theorem intersect_answers {a b : Name} (ha : schema.Composite a) (hb : schema.Composite b) :
    ∃ cs, Answers (intersect a b : LookupM schema LookupError _) cs := by
  obtain ⟨x, hx⟩ := Schema.composite_iff.1 ha
  obtain ⟨y, hy⟩ := Schema.composite_iff.1 hb
  have hab := within_answers ha hb (decide_eq_true_iff (p := schema.Within a b))
  have hba := within_answers hb ha (decide_eq_true_iff (p := schema.Within b a))
  unfold intersect
  by_cases h₁ : schema.Within a b
  · refine ⟨[a], hab.bind ?_⟩
    rw [if_pos (by simpa using h₁)]
    exact .pure _
  by_cases h₂ : schema.Within b a
  · refine ⟨[b], hab.bind ?_⟩
    rw [if_neg (by simpa using h₁)]
    refine hba.bind ?_
    rw [if_pos (by simpa using h₂)]
    exact .pure _
  · refine ⟨x.toList.filter y.contains, hab.bind ?_⟩
    rw [if_neg (by simpa using h₁)]
    refine hba.bind ?_
    rw [if_neg (by simpa using h₂)]
    exact possibleTypeNames_pair_answers hy hx

/-! ## Single questions -/

/-- A report of something else than a built fragment. -/
theorem report_steady {event : Event} (h : ∀ name, event.builds name = false) :
    Steady (report event : LookupM schema ε Unit) := by
  refine ⟨fun _ _ => rfl, fun s name => ?_⟩
  change timesBuilt (event :: s.log) name = _
  rw [timesBuilt_cons, h name]
  rfl

/-- The type of a name. -/
theorem type_steady (name : Name) :
    Steady (LookupM.type name : LookupM schema LookupError NamedType) := by
  unfold LookupM.type
  cases schema.type name with
  | ok t => exact .pure t
  | error e => exact .throw e

/-- The possible types of a name. -/
theorem possibleTypeNames_steady (name : Name) :
    Steady (possibleTypeNames name : LookupM schema LookupError (OrderedSet Name)) := by
  refine ⟨fun s t => ?_, fun s fragment => ?_⟩
  · rcases possibleTypeNames_eq name s with ⟨names, s', hp, hs⟩ | ⟨e, hp, hs⟩ <;>
      rcases possibleTypeNames_eq name t with ⟨names', t', hp', ht⟩ | ⟨e', hp', ht⟩ <;>
      rw [hp] at hp' <;> cases hp' <;> rw [hs, ht] <;> rfl
  · unfold possibleTypeNames
    split
    · rfl
    · split
      · rfl
      · change timesBuilt (if _ then _ else _) fragment = _
        split
        · rw [timesBuilt_cons]
          rfl
        · rfl

/-- Overlap of conditions. -/
theorem overlap_steady (a b : Name) : Steady (overlap a b : LookupM schema LookupError Bool) :=
  .ite (.pure _) <| .bind (possibleTypeNames_steady a) fun _ =>
    .bind (possibleTypeNames_steady b) fun _ => .pure _

/-- Containment of conditions. -/
theorem within_steady (a b : Name) : Steady (within a b : LookupM schema LookupError Bool) :=
  .ite (.pure _) <| .bind (possibleTypeNames_steady a) fun _ =>
    .bind (possibleTypeNames_steady b) fun _ => .pure _

/-- Intersection of conditions. -/
theorem intersect_steady (a b : Name) :
    Steady (intersect a b : LookupM schema LookupError (List Name)) :=
  .bind (within_steady a b) fun _ => .ite (.pure _) <|
    .bind (within_steady b a) fun _ => .ite (.pure _) <|
      .bind (possibleTypeNames_steady b) fun _ => .bind (possibleTypeNames_steady a) fun _ =>
        .pure _

end LookupM

open LookupM (Steady)

variable {schema : Schema}

/-! ## Merging -/

namespace Conditions

/-- Finding the conditions that a new one supersedes. -/
theorem superseded?_steady (condition : Name) :
    ∀ l : List Name,
      Steady (superseded? condition l : LookupM schema LookupError (Option (List Name)))
  | [] => .pure _
  | _ :: rest =>
    .bind (LookupM.within_steady ..) fun _ => .bind (LookupM.within_steady ..) fun _ =>
      .ite (.pure _) <| .bind (superseded?_steady condition rest) fun _ => .pure _

/-- Adding a condition. -/
theorem insert_steady (conditions : OrderedSet Name) (condition : Name) :
    Steady (insert conditions condition : LookupM schema LookupError (OrderedSet Name)) := by
  refine .bind (superseded?_steady condition conditions.toList) fun gone => ?_
  cases gone <;> exact .pure _

/-- Adding conditions. -/
theorem insertAll_steady (conditions : OrderedSet Name) (new : List Name) :
    Steady (insertAll conditions new : LookupM schema LookupError (OrderedSet Name)) :=
  .foldlM insert_steady

end Conditions

/-- Comparing a new field with one that is there. -/
theorem Entity.checkPair_steady (location : Location) (existing incoming : EntityField) :
    Steady (Entity.checkPair location existing incoming : LookupM schema BuildError Unit) := by
  refine .ite (.pure _) (.forM fun old => .forM fun new => ?_)
  exact .bind (LookupM.overlap_steady old new).asked fun _ => .ite (.throw _) (.pure _)

/-- Merging a field. -/
theorem Entity.mergeField_steady (e : Entity) (f : EntityField) :
    Steady (e.mergeField f : LookupM schema BuildError Entity) := by
  refine .bind (.forM fun existing => checkPair_steady _ existing f) fun _ => ?_
  dsimp only
  split <;>
    exact .bind (Conditions.insertAll_steady ..).asked fun _ => .bind (.pure _) fun _ => .pure _

/-- Narrowing the conditions of a copied field. -/
theorem narrowConditions_steady (conditions : List Name) (condition : Name) :
    Steady (narrowConditions conditions condition :
      LookupM schema LookupError (OrderedSet Name)) :=
  .foldlM fun _ _ => .bind (LookupM.intersect_steady ..) fun _ => .pure _

/-! ## Normal forms -/

namespace Selection

mutual

/-- The normal form of a selection. -/
theorem normalize_steady : ∀ (condition : Name) (s : Selection),
    Steady (normalize condition s : LookupM schema LookupError (List NormalSelection))
  | _, .field .. => .pure _
  | _, .spread .. => .pure _
  | condition, .inline none _ selections => normalizeAll_steady condition selections
  | condition, .inline (some own) _ selections => by
    refine .bind (LookupM.intersect_steady condition own) fun narrowed => .ite ?_ ?_
    · exact .bind (LookupM.report_steady fun _ => rfl) fun _ => .pure _
    · exact .bind (.mapM fun c => normalizeAll_steady c selections) fun _ => .pure _

/-- The normal form of selections. -/
theorem normalizeAll_steady : ∀ (condition : Name) (selections : List Selection),
    Steady (normalizeAll condition selections : LookupM schema LookupError (List NormalSelection))
  | _, [] => .pure _
  | condition, s :: rest =>
    .bind (normalize_steady condition s) fun _ => .bind (normalizeAll_steady condition rest)
      fun _ => .pure _

end

end Selection

end EntityGraph
