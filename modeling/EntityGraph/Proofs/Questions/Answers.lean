import EntityGraph.Proofs.Actions
import EntityGraph.Schema.Lookup
import Mathlib.Data.List.Forall2

/-!
# What a schema answers

The questions about type conditions are answered out of a memo, and the log grows on the way. None
of that shows in an answer: `LookupM.Gives q a` says that the question `q` has the answer `a` in
some state, and each question is described here by what its answers say about the possible types
(`Schema.Possible`). Containment and overlap are what their names say (`within_gives`,
`overlap_gives`), and the intersection of two conditions stands for exactly the object types that
satisfy both (`intersect_gives`). For the last one the object types have to be object types, which
is part of what a schema that was built guarantees (`Schema.Coherent`).
-/

namespace EntityGraph

namespace Schema

section
variable (schema : Schema)

/-- The object type `o` is a possible type of `c`, or satisfies `c` as a type condition. -/
def Possible (c o : Name) : Prop := ∃ names, schema.possibleTypes c = .ok names ∧ o ∈ names

/-- `c` names a type that fields can be selected on. -/
def Composite (c : Name) : Prop :=
  ∃ type, schema.types.find? c = some type ∧ type.isComposite = true

/-- Every object type that satisfies `inner` satisfies `outer`. -/
def Within (inner outer : Name) : Prop := ∀ o, schema.Possible inner o → schema.Possible outer o

/-- The conditions are the same, or some object type satisfies both. -/
def Overlap (a b : Name) : Prop := a = b ∨ ∃ o, schema.Possible a o ∧ schema.Possible b o

/-- The names in a schema lead where they should: a type has the name it is kept under, the members
of a union are object types, and so are the root types. -/
structure Coherent : Prop where
  named : ∀ n t, schema.types.find? n = some t → t.name = n
  members : ∀ n t, schema.types.find? n = some (.union t) →
    ∀ m ∈ t.memberNames, ∃ o, schema.types.find? m = some (.object o)
  roots : ∀ kind ref, schema.rootRef? kind = some ref →
    ∃ o, schema.types.find? ref.name = some (.object o)

end

variable {schema : Schema} {a b c o : Name}

/-- A condition lies within itself. -/
theorem Within.refl (c : Name) : schema.Within c c := fun _ h => h

/-- Containment of conditions is transitive. -/
theorem Within.trans (h₁ : schema.Within a b) (h₂ : schema.Within b c) : schema.Within a c :=
  fun o h => h₂ o (h₁ o h)

/-- Overlap of conditions does not depend on their order. -/
theorem Overlap.symm (h : schema.Overlap a b) : schema.Overlap b a :=
  h.imp Eq.symm fun ⟨o, ha, hb⟩ => ⟨o, hb, ha⟩

/-- A type is composite if what is kept under its name is. -/
theorem any_isComposite_iff :
    (schema.types.find? c).any (·.isComposite) = true ↔ schema.Composite c := by
  simp [Composite, Option.any_eq_true]

/-- The possible types of a name are known exactly if it names a composite type. -/
theorem composite_iff : schema.Composite c ↔ ∃ names, schema.possibleTypes c = .ok names := by
  unfold Composite possibleTypes type
  cases schema.types.find? c with
  | none => simp
  | some t => cases t <;> simp [NamedType.isComposite]

/-- A name with a possible type is composite. -/
theorem Possible.composite (h : schema.Possible c o) : schema.Composite c :=
  have ⟨names, hn, _⟩ := h
  composite_iff.2 ⟨names, hn⟩

/-- Membership in the list of possible types, once it is known. -/
theorem possible_iff {names : OrderedSet Name} (h : schema.possibleTypes c = .ok names) :
    schema.Possible c o ↔ o ∈ names := by
  refine ⟨fun ⟨names', h', ho⟩ => ?_, fun ho => ⟨names, h, ho⟩⟩
  rw [h] at h'
  cases h'
  exact ho

/-- A name that is not composite has no possible types. -/
theorem not_possible {e : LookupError} (h : schema.possibleTypes c = .error e) :
    ¬ schema.Possible c o := by
  rintro ⟨names, hn, -⟩
  rw [h] at hn
  cases hn

instance : Decidable (schema.Possible c o) :=
  match h : schema.possibleTypes c with
  | .ok names => decidable_of_iff (o ∈ names) (possible_iff h).symm
  | .error _ => .isFalse (not_possible h)

instance : Decidable (schema.Composite c) :=
  decidable_of_iff ((schema.types.find? c).any (·.isComposite) = true) any_isComposite_iff

instance : Decidable (schema.Within a b) :=
  match h : schema.possibleTypes a with
  | .ok names =>
    decidable_of_iff (∀ o ∈ names.toList, schema.Possible b o)
      (forall_congr' fun _ => imp_congr_left (possible_iff h).symm)
  | .error _ => .isTrue fun _ ho => absurd ho (not_possible h)

/-- The only possible type of an object type is the object type itself. -/
theorem possible_object {t : FieldedType} (h : schema.types.find? c = some (.object t)) :
    schema.Possible c o ↔ o = c := by
  have hp : schema.possibleTypes c = .ok (.singleton c) := by simp [possibleTypes, type, h]
  rw [possible_iff hp, ← OrderedSet.mem_toList, OrderedSet.toList_singleton, List.mem_singleton]

/-- The possible types of an interface are the object types that say they implement it. -/
theorem possible_interface {t : FieldedType} (h : schema.types.find? c = some (.interface t)) :
    schema.Possible c o ↔
      ∃ object ∈ schema.objects, object.implements t.name ∧ object.name = o := by
  have hp : schema.possibleTypes c =
      .ok (.ofList ((schema.objects.filter (·.implements t.name)).map (·.name))) := by
    simp [possibleTypes, type, h]
  simp [possible_iff hp, and_assoc]

/-- The possible types of a union are its members. -/
theorem possible_union {t : UnionType} (h : schema.types.find? c = some (.union t)) :
    schema.Possible c o ↔ o ∈ t.memberNames := by
  have hp : schema.possibleTypes c = .ok (.ofList t.memberNames) := by
    simp [possibleTypes, type, h]
  rw [possible_iff hp, OrderedSet.mem_ofList]

/-- An object type of a coherent schema is kept under its name. -/
theorem Coherent.find?_object (hs : schema.Coherent) {object : FieldedType}
    (h : object ∈ schema.objects) : schema.types.find? object.name = some (.object object) := by
  obtain ⟨type, ht, ho⟩ := List.mem_filterMap.1 h
  obtain ⟨⟨n, type'⟩, hn, rfl⟩ := List.mem_map.1 ht
  have hfind := Dict.find?_eq_some_iff.2 hn
  have hname := hs.named n type' hfind
  cases type' with
  | object t => cases ho; cases hname; exact hfind
  | enum | inputObject | interface | scalar | union => cases ho

/-- What satisfies a condition is an object type. -/
theorem Coherent.object_of_possible (hs : schema.Coherent) (h : schema.Possible c o) :
    ∃ t, schema.types.find? o = some (.object t) := by
  obtain ⟨type, ht, hc⟩ := h.composite
  cases type with
  | object t => rw [possible_object ht] at h; exact ⟨t, h ▸ ht⟩
  | interface t =>
    obtain ⟨object, hm, -, rfl⟩ := (possible_interface ht).1 h
    exact ⟨object, hs.find?_object hm⟩
  | union t => exact hs.members c t ht o ((possible_union ht).1 h)
  | enum | inputObject | scalar => cases hc

/-- An object type is composite, and satisfied by itself only. -/
theorem Coherent.possible_self (hs : schema.Coherent) (h : schema.Possible c o) :
    schema.Composite o ∧ ∀ o', schema.Possible o o' ↔ o' = o := by
  obtain ⟨t, ht⟩ := hs.object_of_possible h
  exact ⟨⟨_, ht, rfl⟩, fun o' => possible_object ht⟩

/-- What an intersection consists of: conditions that lie within both, and that are satisfied by
exactly the object types that satisfy both. -/
structure Meet (schema : Schema) (a b : Name) (cs : List Name) : Prop where
  composite : ∀ c ∈ cs, schema.Composite c
  left : ∀ c ∈ cs, schema.Within c a
  right : ∀ c ∈ cs, schema.Within c b
  possible : ∀ o, (∃ c ∈ cs, schema.Possible c o) ↔ schema.Possible a o ∧ schema.Possible b o

/-- A condition that lies within another one is the intersection of the two. -/
theorem Meet.of_within {x y : Name} (hx : schema.Composite x) (h : schema.Within x y) :
    schema.Meet x y [x] where
  composite := by simpa using hx
  left := by simpa using .refl x
  right := by simpa using h
  possible o := by simpa using h o

/-- Intersection does not depend on the order of the conditions. -/
theorem Meet.symm {cs : List Name} (h : schema.Meet a b cs) : schema.Meet b a cs :=
  ⟨h.composite, h.right, h.left, fun o => (h.possible o).trans and_comm⟩

end Schema

namespace LookupM

variable {schema : Schema} {ε α β : Type}

/-- The question `q` has the answer `a`: it gives it in some state. -/
def Gives (q : LookupM schema ε α) (a : α) : Prop := ∃ s s', q s = .ok a s'

/-- The question `q` has the answer `a` whatever was asked before. -/
def Answers (q : LookupM schema ε α) (a : α) : Prop := ∀ s, ∃ s', q s = .ok a s'

/-! ## Answers of composed questions -/

/-- A value that is returned is the answer. -/
theorem Gives.of_pure {a b : α} (h : Gives (pure a : LookupM schema ε α) b) : b = a := by
  obtain ⟨s, s', h⟩ := h
  cases h
  rfl

/-- A failure is no answer. -/
theorem Gives.of_throw {e : ε} {a : α} (h : Gives (throw e : LookupM schema ε α) a) : False := by
  obtain ⟨s, s', h⟩ := h
  cases h

/-- A sequence of questions has an answer only if each of them has one. -/
theorem Gives.of_bind {q : LookupM schema ε α} {f : α → LookupM schema ε β} {b : β}
    (h : Gives (q >>= f) b) : ∃ a, Gives q a ∧ Gives (f a) b := by
  obtain ⟨s, s', h⟩ := h
  obtain ⟨a, s₁, hq, hf⟩ := ok_of_bind h
  exact ⟨a, ⟨s, s₁, hq⟩, ⟨s₁, s', hf⟩⟩

/-- What holds for every element of a list was checked for every element. -/
theorem Gives.of_forM {f : α → LookupM schema ε PUnit} :
    ∀ {l : List α} {u : PUnit}, Gives (l.forM f) u → ∀ a ∈ l, Gives (f a) ⟨⟩
  | [], _, _, _, ha => nomatch ha
  | _ :: _, _, h, a, ha => by
    obtain ⟨_, h₁, h₂⟩ := Gives.of_bind h
    cases ha with
    | head => exact h₁
    | tail _ ha => exact Gives.of_forM h₂ a ha

/-- The answers for the elements of a list, one after the other. -/
theorem Gives.of_mapM {f : α → LookupM schema ε β} :
    ∀ {l : List α} {bs : List β}, Gives (l.mapM f) bs →
      List.Forall₂ (fun a b => Gives (f a) b) l bs
  | [], _, h => by rw [List.mapM_nil] at h; cases h.of_pure; exact .nil
  | _ :: _, _, h => by
    rw [List.mapM_cons] at h
    obtain ⟨b, h₁, h⟩ := h.of_bind
    obtain ⟨bs, h₂, h⟩ := h.of_bind
    cases h.of_pure
    exact .cons h₁ (Gives.of_mapM h₂)

/-! ## Single questions -/

variable {a b c : Name}

/-- The type of a name is what the schema keeps under it. -/
theorem type_gives {t : NamedType} (h : Gives (type c : LookupM schema LookupError _) t) :
    schema.types.find? c = some t := by
  obtain ⟨s, s', h⟩ := h
  unfold type Schema.type at h
  cases hf : schema.types.find? c with
  | none => rw [hf] at h; cases h
  | some t' => rw [hf] at h; cases h; rfl

/-- The answer about possible types is the one of the schema. -/
theorem possibleTypeNames_gives {names : OrderedSet Name}
    (h : Gives (possibleTypeNames c : LookupM schema LookupError _) names) :
    schema.possibleTypes c = .ok names := by
  obtain ⟨s, s', h⟩ := h
  rcases possibleTypeNames_eq c s with ⟨names', s₁, hp, hq⟩ | ⟨e, hp, hq⟩
  · rw [hq] at h
    cases h
    exact hp
  · rw [hq] at h
    cases h

/-- A composite type always gets its answer. -/
theorem possibleTypeNames_answers {names : OrderedSet Name}
    (h : schema.possibleTypes c = .ok names) :
    Answers (possibleTypeNames c : LookupM schema LookupError _) names := by
  intro s
  rcases possibleTypeNames_eq c s with ⟨names', s₁, hp, hq⟩ | ⟨e, hp, hq⟩
  · rw [h] at hp
    cases hp
    exact ⟨s₁, hq⟩
  · rw [h] at hp
    cases hp

/-- The question about two lists of possible types: what is asked first, and what is then computed
from both answers. -/
theorem possibleTypeNames_pair {α : Type} {f : OrderedSet Name → OrderedSet Name → α} {r : α}
    (h : Gives (do
      let x ← possibleTypeNames a
      let y ← possibleTypeNames b
      return f x y : LookupM schema LookupError α) r) :
    ∃ x y, schema.possibleTypes a = .ok x ∧ schema.possibleTypes b = .ok y ∧ r = f x y := by
  obtain ⟨x, hx, h⟩ := h.of_bind
  obtain ⟨y, hy, h⟩ := h.of_bind
  exact ⟨x, y, possibleTypeNames_gives hx, possibleTypeNames_gives hy, h.of_pure⟩

/-- The same question always gets its answer on composite types. -/
theorem possibleTypeNames_pair_answers {α : Type} {f : OrderedSet Name → OrderedSet Name → α}
    {x y : OrderedSet Name} (hx : schema.possibleTypes a = .ok x)
    (hy : schema.possibleTypes b = .ok y) :
    Answers (do
      let x ← possibleTypeNames a
      let y ← possibleTypeNames b
      return f x y : LookupM schema LookupError α) (f x y) := by
  intro s
  obtain ⟨s₁, h₁⟩ := possibleTypeNames_answers hx s
  obtain ⟨s₂, h₂⟩ := possibleTypeNames_answers hy s₁
  refine ⟨s₂, ?_⟩
  rw [bind_of_ok h₁, bind_of_ok h₂]
  rfl

/-- Containment of conditions is containment of their possible types. -/
theorem within_gives {r : Bool} (h : Gives (within a b : LookupM schema LookupError _) r) :
    r = true ↔ schema.Within a b := by
  unfold within at h
  split at h
  · next hab =>
    cases h.of_pure
    simp [hab, Schema.Within.refl]
  · obtain ⟨x, y, hx, hy, rfl⟩ := possibleTypeNames_pair h
    simp [Schema.Within, Schema.possible_iff hx, Schema.possible_iff hy]

/-- On composite types the question about containment always gets its answer. -/
theorem within_answers (ha : schema.Composite a) (hb : schema.Composite b) {r : Bool}
    (hr : r = true ↔ schema.Within a b) :
    Answers (within a b : LookupM schema LookupError _) r := by
  unfold within
  split
  · next hab =>
    have : r = true := hr.2 (hab ▸ .refl _)
    exact fun s => ⟨s, this ▸ rfl⟩
  · obtain ⟨x, hx⟩ := Schema.composite_iff.1 ha
    obtain ⟨y, hy⟩ := Schema.composite_iff.1 hb
    have : r = x.isSubset y := by
      rw [Bool.eq_iff_iff, hr, OrderedSet.isSubset_iff]
      simp [Schema.Within, Schema.possible_iff hx, Schema.possible_iff hy]
    exact this ▸ possibleTypeNames_pair_answers hx hy

/-- Conditions overlap if they are the same, or if some object type satisfies both. -/
theorem overlap_gives {r : Bool} (h : Gives (overlap a b : LookupM schema LookupError _) r) :
    r = true ↔ schema.Overlap a b := by
  unfold overlap at h
  split at h
  · next hab =>
    cases h.of_pure
    simp [Schema.Overlap, hab]
  · next hab =>
    obtain ⟨x, y, hx, hy, rfl⟩ := possibleTypeNames_pair h
    simp [Schema.Overlap, hab, Schema.possible_iff hx, Schema.possible_iff hy]

/-- On composite types the question about overlap always gets its answer. -/
theorem overlap_answers (ha : schema.Composite a) (hb : schema.Composite b) {r : Bool}
    (hr : r = true ↔ schema.Overlap a b) :
    Answers (overlap a b : LookupM schema LookupError _) r := by
  unfold overlap
  split
  · next hab =>
    have : r = true := hr.2 (.inl hab)
    exact fun s => ⟨s, this ▸ rfl⟩
  · next hab =>
    obtain ⟨x, hx⟩ := Schema.composite_iff.1 ha
    obtain ⟨y, hy⟩ := Schema.composite_iff.1 hb
    have : r = x.toList.any y.contains := by
      rw [Bool.eq_iff_iff, hr]
      simp [Schema.Overlap, hab, Schema.possible_iff hx, Schema.possible_iff hy]
    exact this ▸ possibleTypeNames_pair_answers hx hy

/-- Different names are compared only if both are composite. -/
theorem within_composite {r : Bool} (h : Gives (within a b : LookupM schema LookupError _) r) :
    a = b ∨ schema.Composite a ∧ schema.Composite b := by
  unfold within at h
  split at h
  · next hab => exact .inl hab
  · obtain ⟨x, y, hx, hy, -⟩ := possibleTypeNames_pair h
    exact .inr ⟨Schema.composite_iff.2 ⟨x, hx⟩, Schema.composite_iff.2 ⟨y, hy⟩⟩

/-- A composite type is intersected with composite types only. -/
theorem intersect_composite {cs : List Name} (ha : schema.Composite a)
    (h : Gives (intersect a b : LookupM schema LookupError _) cs) : schema.Composite b := by
  unfold intersect at h
  obtain ⟨r, hr, -⟩ := h.of_bind
  rcases within_composite hr with rfl | ⟨-, hb⟩
  · exact ha
  · exact hb

/-- The intersection of two conditions meets both. -/
theorem intersect_gives (hs : schema.Coherent) {cs : List Name} (ha : schema.Composite a)
    (h : Gives (intersect a b : LookupM schema LookupError _) cs) : schema.Meet a b cs := by
  have hb := intersect_composite ha h
  unfold intersect at h
  obtain ⟨r, hr, h⟩ := h.of_bind
  split at h
  · next hw =>
    cases h.of_pure
    exact .of_within ha ((within_gives hr).1 hw)
  obtain ⟨r', hr', h⟩ := h.of_bind
  split at h
  · next hw =>
    cases h.of_pure
    exact (Schema.Meet.of_within hb ((within_gives hr').1 hw)).symm
  -- neither contains the other: the common object types stand for themselves
  obtain ⟨y, x, hy, hx, rfl⟩ := possibleTypeNames_pair h
  have hmem : ∀ {o}, o ∈ x.toList.filter y.contains ↔
      schema.Possible a o ∧ schema.Possible b o := by
    simp [Schema.possible_iff hx, Schema.possible_iff hy]
  have hself {o} (ho : o ∈ x.toList.filter y.contains) := hs.possible_self (hmem.1 ho).1
  refine ⟨fun c hc => (hself hc).1, fun c hc o ho => ?_, fun c hc o ho => ?_, fun o => ?_⟩
  · cases ((hself hc).2 o).1 ho
    exact (hmem.1 hc).1
  · cases ((hself hc).2 o).1 ho
    exact (hmem.1 hc).2
  · constructor
    · rintro ⟨c, hc, ho⟩
      cases ((hself hc).2 o).1 ho
      exact hmem.1 hc
    · intro ho
      exact ⟨o, hmem.2 ho, ((hself (hmem.2 ho)).2 o).2 rfl⟩

end LookupM

end EntityGraph
