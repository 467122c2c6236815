import EntityGraph.Proofs.Questions.Steady
import EntityGraph.Proofs.Request.Requests

/-!
# Histories of questions

A schema answers any number of questions, and between them there is nothing but the memo and the
log. What a question leaves there depends on few names only: it looks up the possible types of
`Question.reads`, one after the other, and does nothing else (`Question.after_ask`). So the state
after a history is the state after looking up names (`Lookups.asked_eq`), and looking up names fills
their entries once and reports an interface when its entry is filled (`Lookups.find?_reading`,
`Lookups.timesComputed_reading`). The memo of a schema that was built is coherent after any history
(`Schema.Built.memo_coherent`).
-/

namespace EntityGraph

/-- A question to a schema. -/
inductive Question where
  | type (name : Name)
  | possibleTypeNames (name : Name)
  | possibleTypes (type : NamedType)
  | isPossibleType (composite object : Name)
  | overlap (a b : Name)
  | within (inner outer : Name)
  | intersect (a b : Name)

namespace Question

/-- What an answer to the question is. -/
def Answer : Question → Type
  | type _ => NamedType
  | possibleTypeNames _ => OrderedSet Name
  | possibleTypes _ => List FieldedType
  | isPossibleType _ _ | overlap _ _ | within _ _ => Bool
  | intersect _ _ => List Name

/-- Asks the question. -/
def ask {schema : Schema} : (q : Question) → LookupM schema LookupError q.Answer
  | type name => LookupM.type name
  | possibleTypeNames name => LookupM.possibleTypeNames name
  | possibleTypes t => LookupM.possibleTypes t
  | isPossibleType composite object => LookupM.isPossibleType composite object
  | overlap a b => LookupM.overlap a b
  | within inner outer => LookupM.within inner outer
  | intersect a b => LookupM.intersect a b

/-- The names whose possible types are looked up for two conditions: none if they are the same, and
the second one only if the first one has possible types. -/
def readsPair (schema : Schema) (a b : Name) : List Name :=
  if a = b then [] else if schema.Composite a then [a, b] else [a]

/-- The names whose possible types the question looks up. -/
def reads (schema : Schema) : Question → List Name
  | type _ => []
  | possibleTypeNames name => [name]
  | possibleTypes t => [t.name]
  | isPossibleType composite _ => [composite]
  | overlap a b | within a b | intersect a b => readsPair schema a b

end Question

/-- Whether the event says that the possible types of the interface `name` are computed. -/
def Event.computes (name : Name) : Event → Bool
  | .computingPossibleTypes n => n = name
  | _ => false

/-- How often the log says that the possible types of the interface `name` are computed. -/
def timesComputed (log : Log) (name : Name) : Nat := log.countP (Event.computes name)

namespace Lookups

variable {schema : Schema}

/-- The state after some questions, however they end. -/
def asked (s : Lookups schema) (history : List Question) : Lookups schema :=
  history.foldl (fun s q => after (q.ask s)) s

/-- The state after the possible types of some names were looked up. -/
def reading (s : Lookups schema) (names : List Name) : Lookups schema :=
  names.foldl (fun s name => after (LookupM.possibleTypeNames name s)) s

@[simp] theorem reading_nil (s : Lookups schema) : s.reading [] = s := rfl

@[simp] theorem reading_cons (s : Lookups schema) (name : Name) (names : List Name) :
    s.reading (name :: names) = (after (LookupM.possibleTypeNames name s)).reading names := rfl

theorem reading_append (s : Lookups schema) (names names' : List Name) :
    s.reading (names ++ names') = (s.reading names).reading names' := List.foldl_append ..

end Lookups

/-! ## What one look-up leaves -/

/-- A name that has no possible types has no entry. -/
theorem Memo.not_mem_keys_of_error {schema : Schema} (memo : Memo schema) {name : Name}
    {e : LookupError} (h : schema.possibleTypes name = .error e) : name ∉ memo.filled.keys := by
  intro hm
  obtain ⟨names, hn⟩ := Dict.mem_keys_iff.1 hm
  have hok := memo.coherent name names hn
  rw [h] at hok
  cases hok

/-- A name that has no possible types is not composite. -/
theorem Schema.not_composite_of_error {schema : Schema} {name : Name} {e : LookupError}
    (h : schema.possibleTypes name = .error e) : ¬ schema.Composite name := by
  intro hc
  obtain ⟨names, hok⟩ := composite_iff.1 hc
  rw [h] at hok
  cases hok

/-- Interfaces are composite. -/
theorem Schema.composite_of_isInterface {schema : Schema} {name : Name}
    (h : schema.isInterface name = true) : schema.Composite name := by
  unfold Schema.isInterface at h
  split at h
  · next t ht => exact ⟨_, ht, rfl⟩
  · cases h

namespace LookupM

variable {schema : Schema} {name : Name} {s : Lookups schema}

/-- All that looking a name up can do: it has no possible types, or they are remembered, and nothing
changes; or they are not remembered, and then their entry is filled, and an interface is reported. -/
theorem possibleTypeNames_cases (name : Name) (s : Lookups schema) :
    (∃ e, schema.possibleTypes name = .error e ∧ possibleTypeNames name s = .error e s) ∨
    (∃ names, s.memo.filled.find? name = some names ∧
      possibleTypeNames name s = .ok names s) ∨
    (∃ names s', schema.possibleTypes name = .ok names ∧ name ∉ s.memo.filled.keys ∧
      possibleTypeNames name s = .ok names s' ∧
      s'.memo.filled = s.memo.filled.insert name names ∧
      s'.log = if schema.isInterface name then .computingPossibleTypes name :: s.log else s.log) := by
  unfold possibleTypeNames
  split
  · next names hf => exact .inr (.inl ⟨names, hf, rfl⟩)
  · next hf =>
    split
    · next e hp => exact .inl ⟨e, hp, rfl⟩
    · next names hp =>
      exact .inr (.inr ⟨names, _, hp, Dict.find?_eq_none_iff.1 hf, rfl, rfl, rfl⟩)

/-- Looking a name up remembers its possible types if it has some, and changes no other entry. -/
theorem find?_after (n : Name) :
    (after (possibleTypeNames name s)).memo.filled.find? n =
      if n = name then (schema.possibleTypes name).toOption else s.memo.filled.find? n := by
  obtain ⟨e, hp, hq⟩ | ⟨names, hf, hq⟩ | ⟨names, s', hp, -, hq, hmemo, -⟩ :=
    possibleTypeNames_cases name s
  · have hnone := Dict.find?_eq_none_iff.2 (s.memo.not_mem_keys_of_error hp)
    rw [hq, hp]
    show s.memo.filled.find? n = _
    split
    · next hn => rw [hn, hnone]; rfl
    · rfl
  · rw [hq, s.memo.coherent name names hf]
    show s.memo.filled.find? n = _
    split
    · next hn => rw [hn, hf]; rfl
    · rfl
  · rw [hq, hp]
    show s'.memo.filled.find? n = _
    rw [hmemo, Dict.find?_insert]
    rfl

/-- Looking an interface up reports it if its possible types were not remembered. -/
theorem timesComputed_after (n : Name) :
    timesComputed (after (possibleTypeNames name s)).log n = timesComputed s.log n +
      if n = name ∧ schema.isInterface n = true ∧ n ∉ s.memo.filled.keys then 1 else 0 := by
  obtain ⟨e, hp, hq⟩ | ⟨names, hf, hq⟩ | ⟨names, s', hp, hnew, hq, -, hlog⟩ :=
    possibleTypeNames_cases name s
  · have hno : ¬ schema.isInterface name = true := fun hi =>
      Schema.not_composite_of_error hp (Schema.composite_of_isInterface hi)
    rw [hq, if_neg fun ⟨hn, hi, _⟩ => hno (hn ▸ hi)]
    rfl
  · have hm : name ∈ s.memo.filled.keys := Dict.mem_keys_iff.2 ⟨names, hf⟩
    rw [hq, if_neg fun ⟨hn, _, h⟩ => h (hn ▸ hm)]
    rfl
  · rw [hq]
    show timesComputed s'.log n = _
    rw [hlog]
    by_cases hi : schema.isInterface name = true
    · rw [if_pos hi, timesComputed, List.countP_cons]
      congr 1
      by_cases hn : n = name
      · subst hn
        simp [Event.computes, hi, hnew]
      · simp [Event.computes, hn, Ne.symm hn]
    · rw [if_neg hi, if_neg fun ⟨hn, h, _⟩ => hi (hn ▸ h)]
      rfl

/-- Looking a name up that has no possible types fails, and changes nothing. -/
theorem possibleTypeNames_of_error {e : LookupError} (h : schema.possibleTypes name = .error e) :
    possibleTypeNames name s = .error e s := by
  obtain ⟨e', hp, hq⟩ | ⟨names, hf, -⟩ | ⟨names, s', hp, -⟩ := possibleTypeNames_cases name s
  · rw [h] at hp
    cases hp
    exact hq
  · exact absurd (Dict.mem_keys_iff.2 ⟨names, hf⟩) (s.memo.not_mem_keys_of_error h)
  · rw [h] at hp
    cases hp

/-- An answer is given together with the state that it leaves. -/
theorem possibleTypeNames_of_ok {names : OrderedSet Name}
    (h : schema.possibleTypes name = .ok names) :
    possibleTypeNames name s = .ok names (after (possibleTypeNames name s)) := by
  obtain ⟨s', hs⟩ := possibleTypeNames_answers h s
  rw [hs]
  rfl

/-- An answer that is remembered is given again, and nothing changes. -/
theorem possibleTypeNames_of_filled {names : OrderedSet Name}
    (h : s.memo.filled.find? name = some names) : possibleTypeNames name s = .ok names s := by
  obtain ⟨e, hp, -⟩ | ⟨names', hf, hq⟩ | ⟨names', s', -, hnew, -⟩ :=
    possibleTypeNames_cases name s
  · exact absurd (Dict.mem_keys_iff.2 ⟨names, h⟩) (s.memo.not_mem_keys_of_error hp)
  · rw [h] at hf
    cases hf
    exact hq
  · exact absurd (Dict.mem_keys_iff.2 ⟨names, h⟩) hnew

end LookupM

namespace Lookups

variable {schema : Schema} {s : Lookups schema}

/-- Looking names up fills the entries of those that have possible types, and changes no others. -/
theorem find?_reading (names : List Name) (n : Name) :
    (s.reading names).memo.filled.find? n =
      if n ∈ names then (schema.possibleTypes n).toOption else s.memo.filled.find? n := by
  induction names generalizing s with
  | nil => simp
  | cons name names ih =>
    rw [reading_cons, ih, LookupM.find?_after]
    by_cases hn : n = name
    · subst hn
      simp
    · simp [hn]

/-- The entries that are filled after names were looked up. -/
theorem mem_keys_reading (names : List Name) (n : Name) :
    n ∈ (s.reading names).memo.filled.keys ↔
      n ∈ s.memo.filled.keys ∨ schema.Composite n ∧ n ∈ names := by
  rw [Dict.mem_keys_iff, find?_reading, Schema.composite_iff]
  split
  · next hn =>
    cases hp : schema.possibleTypes n with
    | error e => simp [Except.toOption, s.memo.not_mem_keys_of_error hp]
    | ok x => simp [Except.toOption, hn]
  · next hn => simp [hn, Dict.mem_keys_iff]

/-- Looking names up reports the interfaces among them whose entries were not filled, each once. -/
theorem timesComputed_reading (names : List Name) (n : Name) :
    timesComputed (s.reading names).log n = timesComputed s.log n +
      if n ∈ names ∧ schema.isInterface n = true ∧ n ∉ s.memo.filled.keys then 1 else 0 := by
  induction names generalizing s with
  | nil => simp
  | cons name names ih =>
    rw [reading_cons, ih, LookupM.timesComputed_after, Nat.add_assoc]
    congr 1
    have hkeys := mem_keys_reading (s := s) [name] n
    rw [reading_cons, reading_nil] at hkeys
    by_cases hn : n = name
    · subst hn
      by_cases hi : schema.isInterface n = true
      · -- once its entry is filled, an interface is not reported again
        have hfilled := hkeys.2 (.inr ⟨Schema.composite_of_isInterface hi, .head _⟩)
        simp [hi, hfilled]
      · simp [hi]
    · simp [hn, hkeys]

end Lookups

/-! ## What questions leave -/

namespace LookupM

variable {schema : Schema} {α β : Type} {a b : Name} {s : Lookups schema}

/-- What follows a question does not count if it leaves the state as it is. -/
theorem after_bind {q : LookupM schema LookupError α} {f : α → LookupM schema LookupError β}
    (h : ∀ x t, q s = .ok x t → after (f x t) = t) : after ((q >>= f) s) = after (q s) := by
  cases hq : q s with
  | ok x t =>
    rw [bind_of_ok hq]
    exact h x t hq
  | error e t =>
    rw [bind_of_error hq]
    rfl

/-- What follows a look-up starts from the state that the look-up leaves, if the name has possible
types. -/
theorem after_lookUp_bind {f : OrderedSet Name → LookupM schema LookupError α} :
    after ((possibleTypeNames a >>= f) s) =
      match schema.possibleTypes a with
      | .ok names => after (f names (s.reading [a]))
      | .error _ => s.reading [a] := by
  rw [Lookups.reading_cons, Lookups.reading_nil]
  cases hp : schema.possibleTypes a with
  | ok names => rw [bind_of_ok (possibleTypeNames_of_ok hp)]
  | error e =>
    rw [bind_of_error (possibleTypeNames_of_error hp), possibleTypeNames_of_error hp]
    rfl

/-- A question about two lists of possible types looks them up in order. -/
theorem after_pair {f : OrderedSet Name → OrderedSet Name → α} :
    after ((do
      let x ← possibleTypeNames a
      let y ← possibleTypeNames b
      return f x y : LookupM schema LookupError α) s) =
    s.reading (if schema.Composite a then [a, b] else [a]) := by
  rw [after_lookUp_bind]
  cases hp : schema.possibleTypes a with
  | ok x =>
    rw [if_pos (Schema.composite_iff.2 ⟨x, hp⟩)]
    exact after_bind fun _ _ _ => rfl
  | error e => rw [if_neg (Schema.not_composite_of_error hp)]

/-- A question about two lists of possible types changes nothing once both are remembered. -/
theorem after_pair_of_filled {f : OrderedSet Name → OrderedSet Name → α}
    (ha : a ∈ s.memo.filled.keys) (hb : b ∈ s.memo.filled.keys) :
    after ((do
      let x ← possibleTypeNames a
      let y ← possibleTypeNames b
      return f x y : LookupM schema LookupError α) s) = s := by
  obtain ⟨x, hx⟩ := Dict.mem_keys_iff.1 ha
  obtain ⟨y, hy⟩ := Dict.mem_keys_iff.1 hb
  rw [bind_of_ok (possibleTypeNames_of_filled hx), bind_of_ok (possibleTypeNames_of_filled hy)]
  rfl

/-- The names that containment looks up. -/
theorem after_within (a b : Name) :
    after (within a b s) = s.reading (Question.readsPair schema a b) := by
  unfold within Question.readsPair
  split
  · rfl
  · exact after_pair

/-- The names that overlap looks up. -/
theorem after_overlap (a b : Name) :
    after (overlap a b s) = s.reading (Question.readsPair schema a b) := by
  unfold overlap Question.readsPair
  split
  · rfl
  · exact after_pair

/-- Containment changes nothing once the possible types of both conditions are remembered. -/
theorem after_within_of_filled (ha : a ∈ s.memo.filled.keys) (hb : b ∈ s.memo.filled.keys) :
    after (within a b s) = s := by
  unfold within
  split
  · rfl
  · exact after_pair_of_filled ha hb

/-- Intersection looks up what containment looks up: after that, all that it needs is remembered. -/
theorem after_intersect (a b : Name) :
    after (intersect a b s) = s.reading (Question.readsPair schema a b) := by
  by_cases hab : a = b
  · subst hab
    simp [intersect, within, Question.readsPair]
    rfl
  rw [← after_within]
  refine after_bind fun r t hr => ?_
  obtain ⟨ha, hb⟩ := (within_composite ⟨s, t, hr⟩).resolve_left hab
  have ht : t = s.reading [a, b] := by
    have h := after_within (s := s) a b
    rw [hr, Question.readsPair, if_neg hab, if_pos ha] at h
    exact h
  have hfilled {n : Name} (hn : n ∈ [a, b]) (hc : schema.Composite n) :
      n ∈ t.memo.filled.keys :=
    ht ▸ (Lookups.mem_keys_reading [a, b] n).2 (.inr ⟨hc, hn⟩)
  have ha' := hfilled (by simp) ha
  have hb' := hfilled (by simp) hb
  split
  · rfl
  · have hwithin := after_within_of_filled hb' ha'
    refine (after_bind fun r' t' hr' => ?_).trans hwithin
    rw [hr'] at hwithin
    cases hwithin
    split
    · rfl
    · exact after_pair_of_filled hb' ha'

/-- Looking types up leaves no trace. -/
theorem after_mapM {f : α → LookupM schema LookupError β} (h : ∀ a s, after (f a s) = s) :
    ∀ {l : List α} {s : Lookups schema}, after (l.mapM f s) = s
  | [], s => by rw [List.mapM_nil]; rfl
  | a :: l, s => by
    rw [List.mapM_cons]
    have hfirst := h a s
    refine (after_bind fun b t hb => ?_).trans hfirst
    rw [hb] at hfirst
    cases hfirst
    exact (after_bind fun _ _ _ => rfl).trans (after_mapM h)

/-- The definitions of possible types are looked up without a trace. -/
theorem after_possibleTypes (t : NamedType) :
    after (possibleTypes t s : EStateM.Result LookupError _ _) = s.reading [t.name] := by
  refine after_bind fun names t _ => after_mapM fun name s => ?_
  have htype : after (LookupM.type name s : EStateM.Result LookupError _ _) = s := by
    unfold LookupM.type
    cases schema.type name <;> rfl
  refine (after_bind fun u t hu => ?_).trans htype
  rw [hu] at htype
  cases htype
  cases u.object? <;> rfl

end LookupM

namespace Question

variable {schema : Schema} {s : Lookups schema}

/-- A question leaves what looking its names up leaves. -/
theorem after_ask (q : Question) : after (q.ask s) = s.reading (q.reads schema) := by
  cases q with
  | type name =>
    show after (LookupM.type name s : EStateM.Result LookupError _ _) = s
    unfold LookupM.type
    cases schema.type name <;> rfl
  | possibleTypeNames name => rfl
  | possibleTypes t => exact LookupM.after_possibleTypes t
  | isPossibleType composite object => exact LookupM.after_bind fun _ _ _ => rfl
  | overlap a b => exact LookupM.after_overlap a b
  | within a b => exact LookupM.after_within a b
  | intersect a b => exact LookupM.after_intersect a b

/-- A question ends in the same way in every state. -/
theorem ask_steady (q : Question) :
    LookupM.Steady (q.ask : LookupM schema LookupError q.Answer) := by
  cases q with
  | type name => exact LookupM.type_steady name
  | possibleTypeNames name => exact LookupM.possibleTypeNames_steady name
  | possibleTypes t =>
    refine .bind (LookupM.possibleTypeNames_steady t.name) fun names => .mapM fun name => ?_
    refine .bind (LookupM.type_steady name) fun t => ?_
    cases t.object? with
    | some object => exact .pure _
    | none => exact .throw _
  | isPossibleType composite object =>
    exact .bind (LookupM.possibleTypeNames_steady composite) fun _ => .pure _
  | overlap a b => exact LookupM.overlap_steady a b
  | within a b => exact LookupM.within_steady a b
  | intersect a b => exact LookupM.intersect_steady a b

end Question

/-! ## What histories leave -/

namespace Lookups

variable {schema : Schema} {s : Lookups schema}

/-- A history leaves what looking up the names of all its questions leaves. -/
theorem asked_eq (history : List Question) :
    s.asked history = s.reading (history.flatMap (·.reads schema)) := by
  induction history generalizing s with
  | nil => rfl
  | cons q history ih =>
    rw [List.flatMap_cons, reading_append, ← Question.after_ask, ← ih]
    rfl

theorem asked_append (history later : List Question) :
    s.asked (history ++ later) = (s.asked history).asked later := List.foldl_append ..

/-- The entries after a history: those of the composite types that its questions looked up are
filled, and no others are changed. -/
theorem find?_asked (history : List Question) (n : Name) :
    (s.asked history).memo.filled.find? n =
      if ∃ q ∈ history, n ∈ q.reads schema then (schema.possibleTypes n).toOption
      else s.memo.filled.find? n := by
  rw [asked_eq, find?_reading]
  simp only [List.mem_flatMap]

/-- The entries that are filled after a history. -/
theorem mem_keys_asked (history : List Question) (n : Name) :
    n ∈ (s.asked history).memo.filled.keys ↔
      n ∈ s.memo.filled.keys ∨ schema.Composite n ∧ ∃ q ∈ history, n ∈ q.reads schema := by
  rw [asked_eq, mem_keys_reading, List.mem_flatMap]

/-- No question changes a filled entry. -/
theorem find?_asked_of_filled {n : Name} {names : OrderedSet Name}
    (h : s.memo.filled.find? n = some names) (later : List Question) :
    (s.asked later).memo.filled.find? n = some names := by
  rw [find?_asked, s.memo.coherent n names h, h]
  exact ite_self _

/-- A history reports the interfaces whose entries it fills, each once. -/
theorem timesComputed_asked (history : List Question) (n : Name) :
    timesComputed (s.asked history).log n = timesComputed s.log n +
      if (∃ q ∈ history, n ∈ q.reads schema) ∧ schema.isInterface n = true ∧
        n ∉ s.memo.filled.keys then 1 else 0 := by
  rw [asked_eq, timesComputed_reading]
  simp only [List.mem_flatMap]

end Lookups

/-! ## What the entries say -/

/-- The object types that a composite type stands for, in order, as the definitions say: for an
interface the objects that list it, for a union its members, for an object itself. -/
inductive Schema.StandsFor (schema : Schema) : Name → List Name → Prop
  | interface {name : Name} {t : FieldedType} :
      schema.types.find? name = some (.interface t) →
      StandsFor schema name ((schema.objects.filter (name ∈ ·.interfaceNames)).map (·.name))
  | union {name : Name} {t : UnionType} :
      schema.types.find? name = some (.union t) → StandsFor schema name t.memberNames
  | object {name : Name} {t : FieldedType} :
      schema.types.find? name = some (.object t) → StandsFor schema name [name]

/-- Elements that arrive once each are kept in their order. -/
theorem OrderedSet.toList_insertAll {α : Type} [DecidableEq α] {s : OrderedSet α} {l : List α}
    (h : (s.toList ++ l).Nodup) : (s.insertAll l).toList = s.toList ++ l := by
  induction l generalizing s with
  | nil => exact (List.append_nil _).symm
  | cons a l ih =>
    have ha : a ∉ s := fun hm => (List.nodup_append.1 h).2.2 a hm a (.head _) rfl
    have hinsert : (s.insert a).toList = s.toList ++ [a] := by
      rw [toList_insert, if_neg ha]
    show ((s.insert a).insertAll l).toList = _
    rw [ih (by rwa [hinsert, List.append_assoc]), hinsert, List.append_assoc]
    rfl

/-- Elements that are distinct are kept in their order. -/
theorem OrderedSet.toList_ofList {α : Type} [DecidableEq α] {l : List α} (h : l.Nodup) :
    (ofList l).toList = l := toList_insertAll (s := empty) h

namespace Schema

variable {schema : Schema}

/-- The names of the object types are distinct: they are names of types. -/
theorem Coherent.nodup_objects (hs : schema.Coherent) : (schema.objects.map (·.name)).Nodup := by
  have hsub (entries : List (Name × NamedType)) (h : ∀ e ∈ entries, e.2.name = e.1) :
      (((entries.map Prod.snd).filterMap (·.object?)).map (·.name)).Sublist
        (entries.map Prod.fst) := by
    induction entries with
    | nil => exact .slnil
    | cons e entries ih =>
      have hrest := ih fun e' he' => h e' (List.mem_cons_of_mem _ he')
      obtain ⟨key, t⟩ := e
      cases t with
      | object o =>
        have hname : o.name = key := h _ (.head _)
        subst hname
        exact hrest.cons_cons _
      | enum | inputObject | interface | scalar | union => exact hrest.cons key
  exact schema.types.nodup_keys.sublist
    (hsub _ fun e he => hs.named e.1 e.2 (Dict.find?_eq_some_iff.2 he))

/-- The possible types of a name are what the definitions say. -/
theorem Coherent.standsFor (hs : schema.Coherent) {name : Name} {names : OrderedSet Name}
    (h : schema.possibleTypes name = .ok names) : schema.StandsFor name names.toList := by
  obtain ⟨t, hfind, hc⟩ := composite_iff.2 ⟨names, h⟩
  unfold possibleTypes type at h
  rw [hfind] at h
  cases t with
  | interface t =>
    cases h
    have hname : t.name = name := hs.named name _ hfind
    subst hname
    have hsub : (schema.objects.filter (·.implements t.name)).Sublist schema.objects :=
      List.filter_sublist
    have hnodup := hs.nodup_objects.sublist (hsub.map (·.name))
    rw [OrderedSet.toList_ofList hnodup]
    exact .interface hfind
  | union t =>
    cases h
    rw [OrderedSet.toList_ofList (l := t.memberNames) t.members.nodup_keys]
    exact .union hfind
  | object t =>
    cases h
    exact .object hfind
  | enum | inputObject | scalar => cases hc

/-- What a schema that was built remembers and reports after a history of questions, whether they
are answered or fail. The filled entries are those of the composite types that some question looked
up; they say which object types the definitions let the type stand for, and no later question
changes them. Every question is answered as it would be before any other one, and an interface is
reported as computed once if its entry is filled, and else never. -/
theorem Built.memo_coherent (hs : schema.Built) (history : List Question) :
    (∀ name, name ∈ ((Lookups.fresh schema).asked history).memo.filled.keys ↔
      schema.Composite name ∧ ∃ q ∈ history, name ∈ q.reads schema) ∧
    (∀ name names, ((Lookups.fresh schema).asked history).memo.filled.find? name = some names →
      schema.StandsFor name names.toList ∧
      ∀ later, ((Lookups.fresh schema).asked (history ++ later)).memo.filled.find? name =
        some names) ∧
    (∀ q : Question, outcome (q.ask ((Lookups.fresh schema).asked history)) =
      outcome (q.ask (Lookups.fresh schema))) ∧
    ∀ name, timesComputed ((Lookups.fresh schema).asked history).log name =
      if schema.isInterface name = true ∧
        name ∈ ((Lookups.fresh schema).asked history).memo.filled.keys then 1 else 0 := by
  have hkeys (name : Name) : name ∈ ((Lookups.fresh schema).asked history).memo.filled.keys ↔
      schema.Composite name ∧ ∃ q ∈ history, name ∈ q.reads schema := by
    rw [Lookups.mem_keys_asked]
    exact or_iff_right (List.not_mem_nil)
  refine ⟨hkeys, fun name names h => ⟨?_, fun later => ?_⟩, fun q => q.ask_steady.same _ _,
    fun name => ?_⟩
  · exact hs.coherent.standsFor (Memo.coherent _ name names h)
  · rw [Lookups.asked_append]
    exact Lookups.find?_asked_of_filled h later
  · rw [Lookups.timesComputed_asked]
    have hnone : name ∉ (Lookups.fresh schema).memo.filled.keys := List.not_mem_nil
    show 0 + _ = _
    rw [Nat.zero_add]
    refine if_congr ?_ rfl rfl
    rw [hkeys]
    exact ⟨fun ⟨hq, hi, _⟩ => ⟨hi, composite_of_isInterface hi, hq⟩,
      fun ⟨hi, _, hq⟩ => ⟨hq, hi, hnone⟩⟩

end Schema

namespace Sample

/-- Questions of which the first fails after it looked up an interface, and the third looks the
interface up again. -/
def history : List Question :=
  [.overlap "Node" "Missing", .within "Leaf" "Leaf", .intersect "Leaf" "Node"]

/-- After questions about it, some of which fail, the interface of the sample stands for its one
object type and was reported once. -/
theorem node_remembered : schema.Built ∧
    timesComputed ((Lookups.fresh schema).asked history).log "Node" = 1 ∧
    ∃ names, ((Lookups.fresh schema).asked history).memo.filled.find? "Node" = some names ∧
      schema.StandsFor "Node" names.toList ∧
      outcome ((Question.overlap "Query" "Node").ask ((Lookups.fresh schema).asked history)) =
        outcome ((Question.overlap "Query" "Node").ask (Lookups.fresh schema)) := by
  obtain ⟨hkeys, hentries, hsame, htimes⟩ := built.memo_coherent history
  have hinterface : schema.isInterface "Node" = true := by decide +kernel
  have hfilled := (hkeys "Node").2 ⟨Schema.composite_of_isInterface hinterface,
    .overlap "Node" "Missing", .head _, by decide +kernel⟩
  obtain ⟨names, hnames⟩ := Dict.mem_keys_iff.1 hfilled
  exact ⟨built, (htimes "Node").trans (if_pos ⟨hinterface, hfilled⟩), names, hnames,
    (hentries _ _ hnames).1, hsame _⟩

end Sample

end EntityGraph
