import EntityGraph.Proofs.Entity.Leading
import EntityGraph.Proofs.Walk.Formed

/-!
# Units as sums of contributions

A walk contributes to a unit in three ways: it enters a location, merges a named fragment into it,
or selects a field of it under a condition (`Contribution`). A storage that has seen a set of
contributions is described by the set alone, without the order of arrival: it has the locations, the
fragments and the fields of the set, and the conditions of a field are those that are left of all
that arrived (`Storage.Sums`). So two storages with the same contributions match
(`Storage.Sums.matches`). The set also says whether merging fails, which is the case exactly if two
of its contributions clash (`Clash`): a condition that was dropped on the way was covered by one
that stayed, and as every composite type has a possible type, what clashes with the first clashes
with the second. `UnitM.Collects` says both of a piece of work on a unit. Main statements:
`Entity.Sums.mergeField_answers`, `Entity.Sums.not_clash` and `mergeAt_collects`.
-/

namespace EntityGraph

open LookupM (Answers Gives)
open Conditions (Leads)

/-! ## Contributions -/

/-- What a unit is made of. -/
inductive Contribution where
  /-- The location is entered. -/
  | entity (location : Location)
  /-- A named fragment is merged into the entity at the location. -/
  | merged (location : Location) (fragment : Name)
  /-- A field of the entity at the location is selected under the condition. -/
  | field (location : Location) (key : FieldKey) (condition : Name)

namespace Contribution

/-- The location of the entity that is contributed to. -/
def location : Contribution → Location
  | entity l | merged l _ | field l _ _ => l

end Contribution

/-- The conditions under which a field of the entity at `l` is selected. -/
def conditionsOf (C : Set Contribution) (l : Location) (key : FieldKey) : Set Name :=
  {c | .field l key c ∈ C}

/-- What a field of the entity at `l` contributes. -/
def EntityField.contributions (l : Location) (f : EntityField) : Set Contribution :=
  {a | ∃ c ∈ f.conditions, a = .field l f.fieldKey c}

/-- Every composite type has a possible type. -/
def Schema.Inhabited (schema : Schema) : Prop :=
  ∀ c, schema.Composite c → ∃ o, schema.Possible c o

/-- It is enough to look at the names that the schema has types for. -/
theorem Schema.inhabited_of_keys {schema : Schema}
    (h : ∀ c ∈ schema.types.keys, schema.Composite c →
      ∃ o ∈ schema.types.keys, schema.Possible c o) : schema.Inhabited := by
  intro c hc
  obtain ⟨type, htype, -⟩ := id hc
  obtain ⟨o, -, ho⟩ := h c (Dict.mem_keys_iff.2 ⟨type, htype⟩) hc
  exact ⟨o, ho⟩

section
variable (schema : Schema)

/-- Two fields of one response key but different types are selected under overlapping conditions. -/
def Clash (C : Set Contribution) : Prop :=
  ∃ l key key' c c', .field l key c ∈ C ∧ .field l key' c' ∈ C ∧ key.key = key'.key ∧ key ≠ key' ∧
    schema.Overlap c c'

/-- The entity at `l` is what the contributions make of it. -/
structure Entity.Sums (C : Set Contribution) (l : Location) (e : Entity) : Prop extends
    Entity.Formed schema l e where
  merged : ∀ name, name ∈ e.mergedFragments ↔ .merged l name ∈ C
  keys : ∀ key, key ∈ e.fields.keys ↔ ∃ c, .field l key c ∈ C
  conditions : ∀ key, Leads schema (conditionsOf C l key) (e.conditionsAt key)

/-- The storage is what the contributions make of it. -/
structure Storage.Sums (C : Set Contribution) (s : Storage) : Prop where
  keys : ∀ l, l ∈ s.keys ↔ ∃ a ∈ C, a.location = l
  entity : ∀ l e, s.find? l = some e → e.Sums schema C l
  composite : ∀ l key c, .field l key c ∈ C → schema.Composite c
  free : ¬ Clash schema C

end

/-! ## Storages that match -/

/-- The fields lead to the same place and have the same conditions, in whatever order. -/
structure EntityField.Matches (f f' : EntityField) : Prop where
  child : f.child = f'.child
  conditions : ∀ c, c ∈ f.conditions ↔ c ∈ f'.conditions

/-- The entities have the same type, the same merged fragments and the same keys, in whatever order,
and under each key fields that match. -/
structure Entity.Matches (e e' : Entity) : Prop where
  rootType : e.rootType = e'.rootType
  merged : ∀ name, name ∈ e.mergedFragments ↔ name ∈ e'.mergedFragments
  fields : ∀ key, Option.Rel EntityField.Matches (e.fields.find? key) (e'.fields.find? key)

/-- The storages have the same locations, in whatever order, and at each location entities that
match. -/
def Storage.Matches (s s' : Storage) : Prop :=
  ∀ l, Option.Rel Entity.Matches (s.find? l) (s'.find? l)

section
variable {schema : Schema} {C C' D : Set Contribution} {l : Location} {e e' : Entity}
  {f : EntityField} {s s' : Storage}

/-- Values under the same keys are related as soon as those that are found under one key are. -/
theorem Dict.rel_find? {κ ν : Type} [DecidableEq κ] {R : ν → ν → Prop} {d d' : Dict κ ν}
    (hkeys : ∀ k, k ∈ d.keys ↔ k ∈ d'.keys)
    (h : ∀ k v v', d.find? k = some v → d'.find? k = some v' → R v v') (k : κ) :
    Option.Rel R (d.find? k) (d'.find? k) := by
  cases hd : d.find? k with
  | some v =>
    obtain ⟨v', hd'⟩ := Dict.mem_keys_iff.1 ((hkeys k).1 (Dict.mem_keys_iff.2 ⟨v, hd⟩))
    rw [hd']
    exact .some (h k v v' hd hd')
  | none =>
    have hd' : d'.find? k = none := by
      rw [Dict.find?_eq_none_iff] at hd ⊢
      rwa [← hkeys]
    rw [hd']
    exact .none

/-- Entities with the same contributions match. -/
theorem Entity.Sums.matches (h : e.Sums schema C l) (h' : e'.Sums schema C l) : e.Matches e' where
  rootType := h.rootType.trans h'.rootType.symm
  merged name := (h.merged name).trans (h'.merged name).symm
  fields := by
    refine Dict.rel_find? (fun key => (h.keys key).trans (h'.keys key).symm) ?_
    intro key f f' hf hf'
    refine ⟨?_, fun c => ?_⟩
    · rw [(h.fits key f hf).child, (h'.fits key f' hf').child, h.keyed key f hf,
        h'.keyed key f' hf']
    · have hc := (h.conditions key).mem_iff c
      have hc' := (h'.conditions key).mem_iff c
      simp only [Entity.conditionsAt, hf] at hc
      simp only [Entity.conditionsAt, hf'] at hc'
      exact hc.trans hc'.symm

/-- Storages with the same contributions match. -/
theorem Storage.Sums.matches (h : s.Sums schema C) (h' : s'.Sums schema C) : s.Matches s' := by
  refine Dict.rel_find? (fun l => (h.keys l).trans (h'.keys l).symm) ?_
  intro l e e' he he'
  exact (h.entity l e he).matches (h'.entity l e' he')

/-! ## Sums -/

/-- A clash stays when more is contributed. -/
theorem Clash.mono (h : Clash schema C) (hsub : C ⊆ D) : Clash schema D := by
  obtain ⟨l, key, key', c, c', hc, hc', hkey, hne, ho⟩ := h
  exact ⟨l, key, key', c, c', hsub hc, hsub hc', hkey, hne, ho⟩

/-- Only fields clash. -/
theorem Clash.of_union (hD : ∀ l key c, .field l key c ∉ D) (h : Clash schema (C ∪ D)) :
    Clash schema C := by
  obtain ⟨l, key, key', c, c', hc, hc', hkey, hne, ho⟩ := h
  exact ⟨l, key, key', c, c', hc.resolve_right (hD l key c), hc'.resolve_right (hD l key' c'), hkey,
    hne, ho⟩

/-- An entity depends on the contributions to its location only. -/
theorem Entity.Sums.congr (h : e.Sums schema C l)
    (hsame : ∀ a : Contribution, a.location = l → (a ∈ C ↔ a ∈ C')) : e.Sums schema C' l where
  toFormed := h.toFormed
  merged name := (h.merged name).trans (hsame _ rfl)
  keys key := (h.keys key).trans (exists_congr fun c => hsame _ rfl)
  conditions key := by
    have hset : conditionsOf C l key = conditionsOf C' l key := by
      ext c
      exact hsame _ rfl
    exact hset ▸ h.conditions key

/-- A location that nothing is contributed to has a new entity. -/
theorem Entity.Sums.new (hl : schema.Composite l.typeName) (hnone : ∀ a ∈ C, a.location ≠ l) :
    (Entity.new l).Sums schema C l where
  toFormed := .new hl
  merged name := ⟨nofun, fun h => absurd rfl (hnone _ h)⟩
  keys key := ⟨nofun, fun ⟨_, h⟩ => absurd rfl (hnone _ h)⟩
  conditions key := by
    have hset : conditionsOf C l key = ∅ :=
      Set.eq_empty_of_forall_notMem fun c hc => hnone _ hc rfl
    rw [hset]
    exact .empty

variable {w : Workpiece}

/-- A unit without entities has no contributions. -/
theorem Storage.Sums.empty : Storage.Sums schema ∅ ∅ where
  keys _ := ⟨nofun, fun ⟨_, h, _⟩ => h.elim⟩
  entity _ _ h := nomatch h
  composite _ _ _ h := h.elim
  free := fun ⟨_, _, _, _, _, h, _⟩ => h.elim

/-- The entity at a location, as it is or as it would be created. -/
theorem Storage.Sums.entity_at (h : w.entities.Sums schema C) (hl : schema.Composite l.typeName) :
    (w.entity l).Sums schema C l := by
  unfold Workpiece.entity
  cases hf : w.entities.find? l with
  | some e => exact h.entity l e hf
  | none =>
    refine .new hl fun a ha heq => ?_
    exact Dict.find?_eq_none_iff.1 hf ((h.keys l).2 ⟨a, ha, heq⟩)

/-- An entity is put where all that is new contributes to. -/
theorem Storage.Sums.put (h : w.entities.Sums schema C) (he : e.Sums schema (C ∪ D) l)
    (hD : ∀ a ∈ D, a.location = l) (hne : ∃ a, a ∈ D)
    (hcomposite : ∀ key c, .field l key c ∈ D → schema.Composite c)
    (hfree : ¬ Clash schema (C ∪ D)) : (w.put l e).entities.Sums schema (C ∪ D) where
  keys l' := by
    have hput : l' ∈ (w.put l e).entities.keys ↔ l' ∈ w.entities.keys ∨ l' = l := by
      rw [Workpiece.put, Dict.keys_insert]
      split
      · next hmem => exact ⟨.inl, fun h => h.elim id fun heq => heq ▸ hmem⟩
      · simp
    rw [hput, h.keys]
    constructor
    · rintro (⟨a, ha, hl⟩ | rfl)
      · exact ⟨a, .inl ha, hl⟩
      · obtain ⟨a, ha⟩ := hne
        exact ⟨a, .inr ha, hD a ha⟩
    · rintro ⟨a, ha | ha, hl⟩
      · exact .inl ⟨a, ha, hl⟩
      · exact .inr (hl ▸ hD a ha)
  entity l' e' hf := by
    rw [Workpiece.find?_put] at hf
    split at hf
    · next heq =>
      cases hf
      exact heq ▸ he
    · next hother =>
      refine (h.entity l' e' hf).congr fun a ha => ⟨.inl, fun hmem => ?_⟩
      exact hmem.resolve_right fun hd => hother (ha ▸ hD a hd)
  composite l' key c hmem := by
    rcases hmem with hmem | hmem
    · exact h.composite l' key c hmem
    · have heq : l' = l := hD _ hmem
      exact hcomposite key c (heq ▸ hmem)
  free := hfree

/-- A location is entered, and fragments may be merged into its entity. -/
theorem Storage.Sums.note (h : w.entities.Sums schema C) (hl : schema.Composite l.typeName)
    {names : OrderedSet Name} (hD : ∀ a ∈ D, a.location = l) (hne : ∃ a, a ∈ D)
    (hfields : ∀ l key c, .field l key c ∉ D)
    (hnames : ∀ name, name ∈ names ↔ .merged l name ∈ C ∪ D) :
    (w.put l { w.entity l with mergedFragments := names }).entities.Sums schema (C ∪ D) := by
  have he := h.entity_at hl
  have hsame : ∀ key c, .field l key c ∈ C ∪ D ↔ .field l key c ∈ C :=
    fun key c => ⟨fun hmem => hmem.resolve_right (hfields l key c), .inl⟩
  refine h.put ⟨⟨he.location, he.rootType, hl, he.keyed, he.fits, he.antichain, he.apart⟩, hnames,
    fun key => ?_, fun key => ?_⟩ hD hne (fun key c hc => absurd hc (hfields l key c))
    fun hclash => h.free (hclash.of_union hfields)
  · rw [exists_congr (hsame key)]
    exact he.keys key
  · have hset : conditionsOf (C ∪ D) l key = conditionsOf C l key := by
      ext c
      exact hsame key c
    rw [hset]
    exact he.conditions key

/-! ## Merging fields -/

/-- A field that fits clashes with nothing exactly if it does not clash with what the entity has. -/
theorem Entity.Sums.not_clash (hp : schema.Inhabited) (h : e.Sums schema C l)
    (hfree : ¬ Clash schema C) (hC : ∀ key c, .field l key c ∈ C → schema.Composite c)
    (hg : Gives (e.mergeField f : LookupM schema BuildError Entity) e') :
    ¬ Clash schema (C ∪ f.contributions l) := by
  obtain ⟨m, hm, -⟩ := Entity.mergeField_gives hg
  -- an old field of another type: one of its conditions that stayed covers the one that clashes
  have hmixed : ∀ key c c', .field l key c ∈ C → c' ∈ f.conditions → key.key = f.key →
      key ≠ f.fieldKey → ¬ schema.Overlap c c' := by
    intro key c c' hc hc' hkey hne ho
    obtain ⟨x, hx⟩ := Dict.mem_keys_iff.1 ((h.keys key).2 ⟨c, hc⟩)
    obtain ⟨d, hd, hprevails⟩ := (h.conditions key).cover c hc
    simp only [Entity.conditionsAt, hx] at hd
    have hxkey : x.fieldKey = key := h.keyed key x hx
    have htype : x.type ≠ f.type := by
      intro ht
      refine hne (hxkey.symm.trans ?_)
      rw [EntityField.fieldKey, EntityField.fieldKey, ht, ← hkey, ← hxkey]
      rfl
    have hshared : ∃ o, schema.Possible c o ∧ schema.Possible c' o := by
      rcases ho with rfl | ho
      · obtain ⟨o, ho⟩ := hp c (hC key c hc)
        exact ⟨o, ho, ho⟩
      · exact ho
    obtain ⟨o, hco, hco'⟩ := hshared
    refine hm.apart x (Dict.mem_values_iff.2 ⟨key, hx⟩) ?_ htype d hd c' hc'
      (.inr ⟨o, hprevails.1 o hco, hco'⟩)
    rw [← hkey, ← hxkey]
    rfl
  rintro ⟨l', key, key', c, c', hc | ⟨c₁, hc₁, heq⟩, hc' | ⟨c₁', hc₁', heq'⟩, hkey, hne, ho⟩
  · exact hfree ⟨l', key, key', c, c', hc, hc', hkey, hne, ho⟩
  · cases heq'
    exact hmixed key c _ hc hc₁' hkey hne ho
  · cases heq
    exact hmixed key' c' _ hc' hc₁ hkey.symm hne.symm ho.symm
  · cases heq
    cases heq'
    exact hne rfl

/-- Without a clash every check against a field of the entity succeeds. -/
theorem Entity.Sums.checkPair_answers (h : e.Sums schema C l)
    (hf : f.Fits schema l) (hfree : ¬ Clash schema (C ∪ f.contributions l)) {x : EntityField}
    (hx : x ∈ e.fields.values) {location : Location} :
    Answers (Entity.checkPair location x f : LookupM schema BuildError Unit) () := by
  obtain ⟨key, hx⟩ := Dict.mem_values_iff.1 hx
  unfold Entity.checkPair
  split
  · exact .pure _
  · next hpair =>
    simp only [DeclaredType.mergesWith, not_or, Decidable.not_not, decide_eq_true_eq] at hpair
    refine .forM fun c hc => .forM fun c' hc' => ?_
    have hxc := (h.fits key x hx).composite c hc
    have hfc := hf.composite c' hc'
    have hlead : c ∈ e.conditionsAt key := by
      simp only [Entity.conditionsAt, hx]
      exact hc
    have hnot : ¬ schema.Overlap c c' := by
      intro ho
      refine hfree ⟨l, key, f.fieldKey, c, c', .inl (((h.conditions key).mem_iff c).1 hlead).mem,
        .inr ⟨c', hc', rfl⟩, ?_, ?_, ho⟩
      · rw [← h.keyed key x hx]
        exact hpair.1
      · rw [← h.keyed key x hx]
        intro heq
        exact hpair.2 (congrArg FieldKey.type heq)
    have hover : Answers (LookupM.overlap c c' : LookupM schema LookupError Bool) false :=
      LookupM.overlap_answers hxc hfc (by simp [hnot])
    exact hover.asked.bind (.pure _)

/-- The conditions of a merged field are those of the field inserted into those that were there. -/
theorem Entity.mergeField_answers {cs : OrderedSet Name} {location : Location}
    (hlocation : e.location = location)
    (hcheck : ∀ x ∈ e.fields.values,
      Answers (Entity.checkPair location x f : LookupM schema BuildError Unit) ())
    (hinsert : Answers (Conditions.insertAll (e.conditionsAt f.fieldKey) f.conditions.toList :
      LookupM schema LookupError _) cs) :
    ∃ m, m.conditions = cs ∧ Answers (e.mergeField f : LookupM schema BuildError Entity)
      { e with fields := e.fields.insert f.fieldKey m } := by
  subst hlocation
  cases hx : e.fields.find? f.fieldKey with
  | some x =>
    simp only [Entity.conditionsAt, hx] at hinsert
    refine ⟨{ x with conditions := cs, child := x.child <|> f.child }, rfl, ?_⟩
    unfold Entity.mergeField
    simp only [hx]
    exact (Answers.forM hcheck).bind (hinsert.asked.bind ((Answers.pure _).bind (.pure _)))
  | none =>
    simp only [Entity.conditionsAt, hx] at hinsert
    refine ⟨{ f with conditions := cs }, rfl, ?_⟩
    unfold Entity.mergeField
    simp only [hx]
    exact (Answers.forM hcheck).bind (hinsert.asked.bind ((Answers.pure _).bind (.pure _)))

/-- Without a clash a field that fits is merged, and the entity has its contributions then. -/
theorem Entity.Sums.mergeField_answers (h : e.Sums schema C l)
    (hC : ∀ key c, .field l key c ∈ C → schema.Composite c) (hf : f.Fits schema l)
    (hfree : ¬ Clash schema (C ∪ f.contributions l)) :
    ∃ e', Answers (e.mergeField f : LookupM schema BuildError Entity) e' ∧
      e'.Sums schema (C ∪ f.contributions l) l := by
  obtain ⟨cs, hinsert, hleads⟩ := Conditions.insertAll_leads hf.composite
    (fun c hc => hC f.fieldKey c hc) (h.conditions f.fieldKey)
  obtain ⟨m, hmcs, hmerge⟩ := Entity.mergeField_answers (e := e) (f := f) rfl
    (fun x hx => h.checkPair_answers hf hfree hx) hinsert
  obtain ⟨m', hm', heq⟩ := Entity.mergeField_gives hmerge.gives
  have hmm : m' = m := by
    have hfind := congrArg (fun e : Entity => e.fields.find? f.fieldKey) heq
    simp only [Dict.find?_insert_self] at hfind
    exact (Option.some.inj hfind).symm
  subst hmm
  have hother : ∀ key, key ≠ f.fieldKey → ∀ c,
      .field l key c ∈ C ∪ f.contributions l ↔ .field l key c ∈ C := by
    intro key hkey c
    refine ⟨fun hmem => hmem.resolve_right ?_, .inl⟩
    rintro ⟨c', -, hc'⟩
    cases hc'
    exact hkey rfl
  have hself : conditionsOf (C ∪ f.contributions l) l f.fieldKey =
      conditionsOf C l f.fieldKey ∪ {c | c ∈ f.conditions.toList} := by
    ext c
    refine or_congr_right ⟨?_, fun hc => ⟨c, hc, rfl⟩⟩
    rintro ⟨c', hc', heq⟩
    cases heq
    exact hc'
  refine ⟨_, hmerge, hm'.formed h.toFormed hf, fun name => ?_, fun key => ?_, fun key => ?_⟩
  · refine (h.merged name).trans ⟨.inl, fun hmem => hmem.resolve_right ?_⟩
    rintro ⟨c, -, hc⟩
    cases hc
  · by_cases hkey : key = f.fieldKey
    · obtain ⟨c, hc⟩ := hf.nonempty
      subst hkey
      refine ⟨fun _ => ⟨c, .inr ⟨c, hc, rfl⟩⟩, fun _ => ?_⟩
      exact Dict.mem_keys_iff.2 ⟨m', Dict.find?_insert_self ..⟩
    · rw [exists_congr (hother key hkey), ← h.keys, Dict.mem_keys_iff, Dict.mem_keys_iff]
      simp only [Dict.find?_insert, hkey, if_false]
  · by_cases hkey : key = f.fieldKey
    · subst hkey
      rw [hself]
      simp only [Entity.conditionsAt, Dict.find?_insert_self]
      rw [hmcs]
      exact hleads
    · have hset : conditionsOf (C ∪ f.contributions l) l key = conditionsOf C l key := by
        ext c
        exact hother key hkey c
      rw [hset]
      simp only [Entity.conditionsAt, Dict.find?_insert, hkey, if_false]
      exact h.conditions key

end

/-! ## Work on a unit -/

section
variable {schema : Schema} {α β : Type}

/-- The result of work after which the contributions are `C`: the unit is their sum, or two of them
clash. -/
def Collected (C : Set Contribution) :
    EStateM.Result BuildError (Run schema) (α × Workpiece) → Prop
  | .ok p _ => p.2.entities.Sums schema C
  | .error _ _ => Clash schema C

/-- The work contributes `D`, and fails only because of a clash. -/
def UnitM.Collects (D : Set Contribution) (work : UnitM schema α) : Prop :=
  ∀ (C : Set Contribution) (w : Workpiece) (run : Run schema), w.entities.Sums schema C →
    Collected (C ∪ D) (work w run)

/-- The work always succeeds, and what it returns satisfies `post`. -/
def RunM.Returns (work : RunM schema α) (post : α → Prop) : Prop :=
  ∀ run, ∃ a run', work run = .ok a run' ∧ post a

namespace RunM.Returns

/-- A value that is returned. -/
theorem pure {a : α} {post : α → Prop} (h : post a) :
    Returns (Pure.pure a : RunM schema α) post := fun run => ⟨a, run, rfl, h⟩

/-- A sequence. -/
theorem bind {work : RunM schema α} {next : α → RunM schema β} {mid : α → Prop}
    {post : β → Prop} (h : Returns work mid) (hnext : ∀ a, mid a → Returns (next a) post) :
    Returns (work >>= next) post := by
  intro run
  obtain ⟨a, run₁, hw, ha⟩ := h run
  obtain ⟨b, run₂, hn, hb⟩ := hnext a ha run₁
  exact ⟨b, run₂, (bind_of_ok hw).trans hn, hb⟩

/-- A question that is always answered. -/
theorem ask {q : LookupM schema LookupError α} {a : α} (h : Answers q a) :
    Returns (RunM.ask q) fun b => b = a := by
  intro run
  obtain ⟨s, hs⟩ := h.asked run.lookups
  refine ⟨a, { run with lookups := s }, ?_, rfl⟩
  unfold RunM.ask RunM.ofLookup
  rw [hs]

/-- A report. -/
theorem report {event : Event} :
    Returns (RunM.report event : RunM schema Unit) fun _ => True := fun _ => ⟨(), _, rfl, trivial⟩

/-- A loop. -/
theorem forM {f : α → RunM schema Unit} :
    ∀ {l : List α}, (∀ a ∈ l, Returns (f a) fun _ => True) →
      Returns (l.forM f) fun _ => True
  | [], _ => .pure trivial
  | a :: _, h => (h a (.head _)).bind fun _ _ =>
      RunM.Returns.forM fun b hb => h b (List.mem_cons_of_mem _ hb)

end RunM.Returns

namespace UnitM.Collects

variable {D D' : Set Contribution}

/-- What is returned contributes nothing. -/
theorem pure {a : α} : Collects ∅ (Pure.pure a : UnitM schema α) := by
  intro C w run hw
  rw [Set.union_empty]
  exact hw

/-- A change of the unit that leaves the contributions `D`, and then the rest. -/
theorem step {work rest : UnitM schema α}
    (hstep : ∀ (C : Set Contribution) (w : Workpiece) (run : Run schema),
      w.entities.Sums schema C →
      ∃ w₁ run₁, w₁.entities.Sums schema (C ∪ D) ∧ work w run = rest w₁ run₁)
    (hrest : Collects D' rest) : Collects (D ∪ D') work := by
  intro C w run hw
  obtain ⟨w₁, run₁, hw₁, hwork⟩ := hstep C w run hw
  rw [← Set.union_assoc, hwork]
  exact hrest _ w₁ run₁ hw₁

/-- A change of the unit that leaves its entities alone. -/
theorem modify {f : Workpiece → Workpiece} (h : ∀ w, (f w).entities = w.entities) :
    Collects ∅ (modify f : UnitM schema PUnit) := by
  intro C w run hw
  rw [Set.union_empty]
  show (f w).entities.Sums schema C
  rw [h]
  exact hw

/-- A sequence of two pieces of work. -/
theorem bind {work : UnitM schema α} {next : α → UnitM schema β} (h : Collects D work)
    (hnext : ∀ a, Collects D' (next a)) : Collects (D ∪ D') (work >>= next) := by
  intro C w run hw
  have h := h C w run hw
  rw [← Set.union_assoc]
  cases hwork : work w run with
  | ok p run₁ =>
    rw [hwork] at h
    rw [UnitM.bind_of_ok hwork]
    exact hnext p.1 _ p.2 run₁ h
  | error e run₁ =>
    rw [hwork] at h
    rw [UnitM.bind_of_error hwork]
    exact Clash.mono h Set.subset_union_left

/-- Work of the run that always succeeds, and then the rest. -/
theorem ofRun_bind {work : RunM schema α} {next : α → UnitM schema β} {post : α → Prop}
    (h : RunM.Returns work post) (hnext : ∀ a, post a → Collects D (next a)) :
    Collects D (UnitM.ofRun work >>= next) := by
  intro C w run hw
  obtain ⟨a, run₁, hwork, ha⟩ := h run
  rw [UnitM.bind_of_ok (UnitM.ofRun_of_ok hwork)]
  exact hnext a ha C w run₁ hw

/-- Work of the run that always succeeds. -/
theorem ofRun {work : RunM schema α} {post : α → Prop} (h : RunM.Returns work post) :
    Collects ∅ (UnitM.ofRun work) := by
  intro C w run hw
  obtain ⟨a, run₁, hwork, -⟩ := h run
  rw [UnitM.ofRun_of_ok hwork, Set.union_empty]
  exact hw

/-- A loop contributes what its steps do. -/
theorem forM {γ : Type} {f : γ → UnitM schema Unit} {D : γ → Set Contribution} {l : List γ}
    (h : ∀ x ∈ l, Collects (D x) (f x)) : Collects {a | ∃ x ∈ l, a ∈ D x} (l.forM f) := by
  induction l with
  | nil =>
    have hset : {a | ∃ x ∈ ([] : List γ), a ∈ D x} = ∅ := by simp
    rw [hset]
    exact .pure
  | cons x l ih =>
    have hset : {a | ∃ y ∈ x :: l, a ∈ D y} = D x ∪ {a | ∃ y ∈ l, a ∈ D y} := by
      ext a
      simp
    rw [hset]
    exact (h x (.head _)).bind fun _ => ih fun y hy => h y (List.mem_cons_of_mem _ hy)

end UnitM.Collects

variable {l : Location}

/-- The entity at a location is found or created. -/
theorem entityAt_eq (l : Location) (w : Workpiece) (run : Run schema) :
    ∃ run', UnitM.entityAt l w run = .ok (w.entity l, w.put l (w.entity l)) run' := by
  cases hf : w.entities.find? l with
  | some e =>
    refine ⟨run, ?_⟩
    rw [Workpiece.put_entity hf]
    simp only [UnitM.entityAt, bind, StateT.bind, EStateM.bind, get, getThe, MonadStateOf.get,
      StateT.get, pure, EStateM.pure, Workpiece.entity, hf, Option.getD_some]
    rfl
  | none =>
    have hreport : RunM.Returns (RunM.report (.creatingEntity l) : RunM schema Unit)
        fun _ => True := .report
    obtain ⟨_, run', hr, -⟩ := hreport run
    refine ⟨run', ?_⟩
    simp only [UnitM.entityAt, bind, StateT.bind, EStateM.bind, get, getThe, MonadStateOf.get,
      StateT.get, pure, EStateM.pure, Workpiece.entity, hf, Option.getD_none, UnitM.ofRun,
      StateT.lift, hr]
    rfl

/-- A location is entered. -/
theorem entityAt_collects (hl : schema.Composite l.typeName) :
    UnitM.Collects {.entity l} (UnitM.entityAt l : UnitM schema Entity) := by
  intro C w run hw
  obtain ⟨run', he⟩ := entityAt_eq l w run
  rw [he]
  show (w.put l { w.entity l with mergedFragments := (w.entity l).mergedFragments }).entities.Sums
    schema (C ∪ {.entity l})
  refine hw.note hl ?_ ⟨_, rfl⟩ (by simp) fun name => ?_
  · rintro a rfl
    rfl
  · rw [(hw.entity_at hl).merged name]
    simp

/-- A field that fits is merged. -/
theorem mergeAt_collects (hp : schema.Inhabited) {f : EntityField}
    (hl : schema.Composite l.typeName) (hf : f.Fits schema l) :
    UnitM.Collects (f.contributions l) (UnitM.mergeAt l f : UnitM schema Unit) := by
  intro C w run hw
  have hsum : (w.entity l).Sums schema C l := hw.entity_at hl
  have hC : ∀ key c, .field l key c ∈ C → schema.Composite c := hw.composite l
  obtain ⟨run₁, he⟩ := entityAt_eq l w run
  rw [UnitM.mergeAt, UnitM.bind_of_ok he]
  show Collected _
    (EStateM.bind (EStateM.bind (RunM.ofLookup ((w.entity l).mergeField f)) _) _ run₁)
  unfold EStateM.bind RunM.ofLookup
  cases hm : (w.entity l).mergeField f run₁.lookups with
  | error e s =>
    -- without a clash the field would have been merged
    by_contra hfree
    obtain ⟨e', hanswers, -⟩ := hsum.mergeField_answers hC hf hfree
    obtain ⟨s', hs'⟩ := hanswers run₁.lookups
    rw [hm] at hs'
    cases hs'
  | ok e' s =>
    have hgives : Gives ((w.entity l).mergeField f : LookupM schema BuildError Entity) e' :=
      ⟨_, _, hm⟩
    have hfree := hsum.not_clash hp hw.free hC hgives
    obtain ⟨e₁, hanswers, hsum'⟩ := hsum.mergeField_answers hC hf hfree
    have heq : e' = e₁ := (Entity.mergeField_steady _ f).unique hgives hanswers.gives
    subst heq
    show ((w.put l (w.entity l)).put l e').entities.Sums schema (C ∪ f.contributions l)
    rw [Workpiece.put_put]
    obtain ⟨c, hc⟩ := hf.nonempty
    refine hw.put hsum' ?_ ⟨_, c, hc, rfl⟩ ?_ hfree
    · rintro a ⟨c, -, rfl⟩
      rfl
    · rintro key c ⟨c', hc', heq⟩
      cases heq
      exact hf.composite c hc'

end

end EntityGraph
