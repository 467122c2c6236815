import EntityGraph.Build.Entity
import EntityGraph.Proofs.Questions.Answers
import Mathlib.Data.String.Basic

/-!
# Merging fields

What inserting type conditions and merging fields do to the object types that are covered. Of two
conditions one may prevail over the other (`Schema.Prevails`), and an inserted condition gives way
to one that prevails over it or takes the place of those that lie within it
(`Conditions.insert_gives`). Inserting conditions covers what was covered before and what the new
conditions cover, invents none, and keeps antichains (`Conditions.Joins`,
`Conditions.insertAll_joins`). Merging a field changes what is kept under its own key only, and
refuses a second type for a response key unless the conditions are apart (`Entity.Merge`,
`Entity.mergeField_gives`).
-/

namespace EntityGraph

variable {schema : Schema}

/-- A question that is asked as part of a build has the same answers. -/
theorem LookupM.Gives.of_asked {α : Type} {q : LookupM schema LookupError α} {a : α}
    (h : Gives (LookupM.asked q) a) : Gives q a := by
  obtain ⟨s, s', h⟩ := h
  unfold LookupM.asked at h
  split at h
  · next hq => cases h; exact ⟨s, _, hq⟩
  · cases h

open LookupM (Gives)

/-! ## Conditions that stay -/

/-- Of the two conditions `e` stays, as it covers `c` and does not have the larger name if it is
also the other way round. -/
def Schema.Prevails (schema : Schema) (e c : Name) : Prop :=
  schema.Within c e ∧ (schema.Within e c → e ≤ c)

section
variable {schema : Schema} {a b c : Name}

namespace Schema.Prevails

/-- A condition stays beside itself. -/
theorem refl (c : Name) : schema.Prevails c c := ⟨.refl c, fun _ => le_refl c⟩

/-- What covers a condition that stays, stays as well. -/
theorem trans (h₁ : schema.Prevails a b) (h₂ : schema.Prevails b c) : schema.Prevails a c := by
  refine ⟨h₂.1.trans h₁.1, fun hac => ?_⟩
  have hab : a ≤ b := h₁.2 (hac.trans h₂.1)
  have hbc : b ≤ c := h₂.2 (h₁.1.trans hac)
  exact hab.trans hbc

/-- Different conditions do not both stay. -/
theorem antisymm (h₁ : schema.Prevails a b) (h₂ : schema.Prevails b a) : a = b :=
  le_antisymm (h₁.2 h₂.1) (h₂.2 h₁.1)

/-- Of two conditions of which one lies within the other, one stays. -/
theorem of_within (h : schema.Within a b) (hnot : ¬ schema.Prevails a b) :
    schema.Prevails b a := by
  refine ⟨h, fun hba => ?_⟩
  have hlt : ¬ a ≤ b := fun hle => hnot ⟨hba, fun _ => hle⟩
  exact le_of_lt (not_le.1 hlt)

end Schema.Prevails

end

/-! ## Sets of conditions -/

namespace Conditions

section
variable (schema : Schema)

/-- The object type `o` satisfies a condition of the set. -/
def Cover (conditions : OrderedSet Name) (o : Name) : Prop :=
  ∃ c ∈ conditions, schema.Possible c o

/-- No condition of the set lies within another one. -/
def Antichain (conditions : OrderedSet Name) : Prop :=
  ∀ a ∈ conditions, ∀ b ∈ conditions, schema.Within a b → a = b

/-- What the set `after` has to do with the set `before` that the conditions `new` were added to. -/
structure Joins (before : OrderedSet Name) (new : List Name) (after : OrderedSet Name) : Prop where
  subset : ∀ c ∈ after, c ∈ before ∨ c ∈ new
  cover : ∀ o, Cover schema after o ↔ Cover schema before o ∨ ∃ c ∈ new, schema.Possible c o
  antichain : Antichain schema before → Antichain schema after
  nonempty : (∃ c, c ∈ before) ∨ new ≠ [] → ∃ c, c ∈ after

end

variable {a b c : OrderedSet Name} {condition : Name}

/-- Adding nothing changes nothing. -/
theorem Joins.nil : Joins schema a [] a :=
  ⟨fun _ => .inl, fun o => by simp, id, fun h => h.elim id fun h => absurd rfl h⟩

/-- Conditions are added one after the other. -/
theorem Joins.cons {new : List Name} (h₁ : Joins schema a [condition] b)
    (h₂ : Joins schema b new c) : Joins schema a (condition :: new) c := by
  refine ⟨fun x hx => ?_, fun o => ?_, fun h => h₂.antichain (h₁.antichain h), fun _ => ?_⟩
  · rcases h₂.subset x hx with hb | hn
    · rcases h₁.subset x hb with ha | hc
      · exact .inl ha
      · exact .inr (by simp_all)
    · exact .inr (List.mem_cons_of_mem _ hn)
  · simp [h₂.cover, h₁.cover, or_assoc]
  · exact h₂.nonempty (.inl (h₁.nonempty (.inr (by simp))))

/-- Which conditions a new one supersedes: none if one of them prevails over it, and else those that
lie within it. -/
theorem superseded?_gives {l : List Name} {r : Option (List Name)}
    (h : Gives (superseded? condition l : LookupM schema LookupError _) r) :
    (r = none ∧ ∃ e ∈ l, schema.Prevails e condition) ∨
      ∃ gone, r = some gone ∧ (∀ e ∈ l, ¬ schema.Prevails e condition) ∧
        ∀ e, e ∈ gone ↔ e ∈ l ∧ schema.Within e condition := by
  induction l generalizing r with
  | nil =>
    cases h.of_pure
    exact .inr ⟨[], rfl, by simp, by simp⟩
  | cons e l ih =>
    obtain ⟨new, hn, h⟩ := h.of_bind
    obtain ⟨old, ho, h⟩ := h.of_bind
    have hn := LookupM.within_gives hn
    have ho := LookupM.within_gives ho
    have htest : (new && !(old && decide (condition < e))) = true ↔ schema.Prevails e condition := by
      simp only [Schema.Prevails, Bool.and_eq_true, Bool.not_eq_true', Bool.and_eq_false_imp,
        decide_eq_false_iff_not, not_lt, hn, ho]
    split at h
    · next hp =>
      cases h.of_pure
      exact .inl ⟨rfl, e, .head _, htest.1 hp⟩
    · next hp =>
      obtain ⟨more, hm, h⟩ := h.of_bind
      cases h.of_pure
      rcases ih hm with ⟨rfl, x, hx, hpx⟩ | ⟨gone, rfl, hnone, hgone⟩
      · exact .inl ⟨rfl, x, List.mem_cons_of_mem _ hx, hpx⟩
      · refine .inr ⟨_, rfl, List.forall_mem_cons.2 ⟨fun h => hp (htest.2 h), hnone⟩, fun x => ?_⟩
        cases old with
        | true =>
          have hw := ho.1 rfl
          simp only [if_true, List.mem_cons, hgone, or_and_right]
          exact or_congr_left ⟨fun heq => ⟨heq, heq ▸ hw⟩, And.left⟩
        | false =>
          have hw : ¬ schema.Within e condition := fun hw => by simpa using ho.2 hw
          simp only [Bool.false_eq_true, if_false, List.mem_cons, hgone]
          exact and_congr_left fun hx => ⟨.inr, fun h => h.resolve_left fun heq => hw (heq ▸ hx)⟩

/-- Inserting a condition changes nothing if one that is there prevails over it, and else it takes
the place of those that lie within it. -/
theorem insert_gives {before after : OrderedSet Name}
    (h : Gives (insert before condition : LookupM schema LookupError _) after) :
    (after = before ∧ ∃ e ∈ before, schema.Prevails e condition) ∨
      (∀ e ∈ before, ¬ schema.Prevails e condition) ∧
        ∀ x, x ∈ after ↔ (x ∈ before ∧ ¬ schema.Within x condition) ∨ x = condition := by
  obtain ⟨r, hr, h⟩ := h.of_bind
  rcases superseded?_gives hr with ⟨rfl, hcovered⟩ | ⟨gone, rfl, hnew, hgone⟩
  · cases h.of_pure
    exact .inl ⟨rfl, hcovered⟩
  · cases h.of_pure
    refine .inr ⟨hnew, fun x => ?_⟩
    rw [OrderedSet.mem_insert, ← OrderedSet.mem_toList, OrderedSet.toList_filter, List.mem_filter]
    have hout : (!gone.contains x) = true ↔
        ¬ (x ∈ before.toList ∧ schema.Within x condition) := by
      rw [← hgone]
      simp
    rw [hout, OrderedSet.mem_toList]
    grind

/-- Inserting a condition adds what it covers. -/
theorem insert_joins {before after : OrderedSet Name}
    (h : Gives (insert before condition : LookupM schema LookupError _) after) :
    Joins schema before [condition] after := by
  rcases insert_gives h with ⟨rfl, e, he, hprevails⟩ | ⟨hnew, hmem⟩
  · refine ⟨fun _ => .inl, fun o => ⟨.inl, fun h => ?_⟩, id, fun _ => ⟨e, he⟩⟩
    rcases h with h | ⟨c, hc, ho⟩
    · exact h
    · cases List.mem_singleton.1 hc
      exact ⟨e, he, hprevails.1 o ho⟩
  · refine ⟨fun x hx => ?_, fun o => ⟨fun ⟨x, hx, ho⟩ => ?_, fun h => ?_⟩,
      fun ha x hx y hy hw => ?_, fun _ => ⟨condition, (hmem _).2 (.inr rfl)⟩⟩
    · rcases (hmem x).1 hx with ⟨hb, -⟩ | rfl
      · exact .inl hb
      · exact .inr (by simp)
    · rcases (hmem x).1 hx with ⟨hb, -⟩ | rfl
      · exact .inl ⟨x, hb, ho⟩
      · exact .inr ⟨x, by simp, ho⟩
    · rcases h with ⟨x, hx, ho⟩ | ⟨c, hc, ho⟩
      · by_cases hwx : schema.Within x condition
        · exact ⟨condition, (hmem _).2 (.inr rfl), hwx o ho⟩
        · exact ⟨x, (hmem x).2 (.inl ⟨hx, hwx⟩), ho⟩
      · cases List.mem_singleton.1 hc
        exact ⟨condition, (hmem _).2 (.inr rfl), ho⟩
    · -- what stays does not lie within the new condition, and so the new one does not lie within it
      rcases (hmem x).1 hx with ⟨hbx, hwx⟩ | rfl <;> rcases (hmem y).1 hy with ⟨hby, hwy⟩ | rfl
      · exact ha x hbx y hby hw
      · exact absurd hw hwx
      · exact absurd ⟨hw, fun hback => absurd hback hwy⟩ (hnew y hby)
      · rfl

/-- Inserting conditions adds what they cover. -/
theorem insertAll_joins {new : List Name} {before after : OrderedSet Name}
    (h : Gives (insertAll before new : LookupM schema LookupError _) after) :
    Joins schema before new after := by
  induction new generalizing before with
  | nil => cases h.of_pure; exact .nil
  | cons c new ih =>
    rw [insertAll, List.foldlM_cons] at h
    obtain ⟨b, h₁, h₂⟩ := h.of_bind
    exact (insert_joins h₁).cons (ih h₂)

end Conditions

/-! ## Entities -/

open Conditions (Cover Antichain Joins)

namespace Entity

section
variable (schema : Schema)

/-- The entity has a field with the response key `k` in responses of the object type `o`. -/
def Covers (e : Entity) (k o : Name) : Prop :=
  ∃ key f, e.fields.find? key = some f ∧ key.key = k ∧ Cover schema f.conditions o

/-- The conditions under which the entity has the field `key`; none if it does not have it. -/
def conditionsAt (e : Entity) (key : FieldKey) : OrderedSet Name :=
  match e.fields.find? key with
  | some x => x.conditions
  | none => ∅

/-- What merging the field `f` into the entity `e` makes of it: the field `m`, kept under the key of
`f`. -/
structure Merge (e : Entity) (f m : EntityField) : Prop where
  /-- A field with the same response key and another type has conditions of its own. -/
  apart : ∀ x ∈ e.fields.values, x.key = f.key → x.type ≠ f.type →
    ∀ c ∈ x.conditions, ∀ c' ∈ f.conditions, ¬ schema.Overlap c c'
  joins : Joins schema (e.conditionsAt f.fieldKey) f.conditions.toList m.conditions
  /-- All but the conditions is taken over from what was there, or else from `f`. -/
  rest : m = match e.fields.find? f.fieldKey with
    | some x => { x with conditions := m.conditions, child := x.child <|> f.child }
    | none => { f with conditions := m.conditions }

end

variable {e e' : Entity} {f m : EntityField} {location : Location}

/-- Two fields that pass the check have different keys, the same type or conditions apart. -/
theorem checkPair_gives {x : EntityField} {u : Unit}
    (h : Gives (checkPair location x f : LookupM schema BuildError Unit) u) (hk : x.key = f.key)
    (ht : x.type ≠ f.type) : ∀ c ∈ x.conditions, ∀ c' ∈ f.conditions, ¬ schema.Overlap c c' := by
  intro c hc c' hc' ho
  unfold checkPair at h
  rw [if_neg (by simp [hk, DeclaredType.mergesWith, ht])] at h
  obtain ⟨r, hr, h⟩ := ((h.of_forM c hc).of_forM c' hc').of_bind
  have hr := LookupM.overlap_gives hr.of_asked
  rw [if_pos (hr.2 ho)] at h
  exact h.of_throw

/-- Merging a field inserts its conditions into those that are kept under its key. -/
theorem mergeField_inserts (h : Gives (e.mergeField f : LookupM schema BuildError Entity) e') :
    ∃ m, Merge schema e f m ∧ e' = { e with fields := e.fields.insert f.fieldKey m } ∧
      Gives (Conditions.insertAll (e.conditionsAt f.fieldKey) f.conditions.toList :
        LookupM schema LookupError _) m.conditions := by
  unfold mergeField at h
  obtain ⟨u, hc, h⟩ := h.of_bind
  have apart := fun x hx => checkPair_gives (hc.of_forM x hx)
  cases hf : e.fields.find? f.fieldKey with
  | some x =>
    simp only [hf] at h
    obtain ⟨conditions, hi, h⟩ := h.of_bind
    obtain ⟨m, hm, h⟩ := h.of_bind
    cases hm.of_pure
    cases h.of_pure
    have hi : Gives (Conditions.insertAll (e.conditionsAt f.fieldKey) f.conditions.toList :
        LookupM schema LookupError _) conditions := by simpa [conditionsAt, hf] using hi.of_asked
    exact ⟨_, ⟨apart, Conditions.insertAll_joins hi, by simp [hf]⟩, rfl, hi⟩
  | none =>
    simp only [hf] at h
    obtain ⟨conditions, hi, h⟩ := h.of_bind
    obtain ⟨m, hm, h⟩ := h.of_bind
    cases hm.of_pure
    cases h.of_pure
    have hi : Gives (Conditions.insertAll (e.conditionsAt f.fieldKey) f.conditions.toList :
        LookupM schema LookupError _) conditions := by simpa [conditionsAt, hf] using hi.of_asked
    exact ⟨_, ⟨apart, Conditions.insertAll_joins hi, by simp [hf]⟩, rfl, hi⟩

/-- Merging a field replaces what is kept under its key. -/
theorem mergeField_gives (h : Gives (e.mergeField f : LookupM schema BuildError Entity) e') :
    ∃ m, Merge schema e f m ∧ e' = { e with fields := e.fields.insert f.fieldKey m } := by
  obtain ⟨m, hm, he', -⟩ := mergeField_inserts h
  exact ⟨m, hm, he'⟩

/-- What is covered under a key is covered by the conditions kept there. -/
theorem covers_iff {k o : Name} :
    Covers schema e k o ↔ ∃ key : FieldKey, key.key = k ∧ Cover schema (e.conditionsAt key) o := by
  refine ⟨fun ⟨key, f, hf, hk, ho⟩ => ⟨key, hk, by simpa [conditionsAt, hf] using ho⟩,
    fun ⟨key, hk, ho⟩ => ?_⟩
  cases hf : e.fields.find? key with
  | some f => exact ⟨key, f, hf, hk, by simpa [conditionsAt, hf] using ho⟩
  | none =>
    obtain ⟨c, hc, -⟩ := ho
    simp [conditionsAt, hf, ← OrderedSet.mem_toList] at hc

/-- Merging a field adds what the field covers. -/
theorem Merge.covers (h : Merge schema e f m) {k o : Name} :
    Covers schema { e with fields := e.fields.insert f.fieldKey m } k o ↔
      Covers schema e k o ∨ f.key = k ∧ Cover schema f.conditions o := by
  have hat : ∀ key, Cover schema
      (conditionsAt { e with fields := e.fields.insert f.fieldKey m } key) o ↔
        Cover schema (e.conditionsAt key) o ∨ key = f.fieldKey ∧ Cover schema f.conditions o := by
    intro key
    by_cases hk : key = f.fieldKey
    · subst hk
      rw [conditionsAt, Dict.find?_insert_self]
      simpa [Cover] using h.joins.cover o
    · simp [conditionsAt, Dict.find?_insert, hk]
  simp only [covers_iff, hat, and_or_left, exists_or]
  refine or_congr_right ⟨fun ⟨key, hk, he, ho⟩ => ⟨by rw [← hk, he]; rfl, ho⟩, fun ⟨hk, ho⟩ => ?_⟩
  exact ⟨f.fieldKey, hk, rfl, ho⟩

end Entity

end EntityGraph
