import EntityGraph.Proofs.Request.Requests
import EntityGraph.Proofs.Walk.Contributions

/-!
# Merging a field, with all its outcomes

Merging a field into an entity either fails, with a conflict that is about the first field of the
entity that conflicts with it (`Entity.Refuses`), or the entity takes the field in (`Entity.Takes`).
What an entity is made of is a list of merged fields (`Entity.MadeOf`). A failure leaves no trace:
the same merge as work that changes the entity in place, condition by condition, has changed nothing
when it fails (`Entity.mergeInPlace`). Main statement: `Entity.MadeOf.mergeField_exact`.
-/

namespace EntityGraph

open LookupM (Answers Gives)
open Conditions (Cover Antichain Leads)

/-! ## Checks -/

namespace LookupM

variable {schema : Schema} {ε α β : Type}

/-- The question `q` fails with `x` whatever was asked before. -/
def Throws (q : LookupM schema ε α) (x : ε) : Prop := ∀ s, ∃ s', q s = .error x s'

/-- A failure fails. -/
theorem Throws.throw (x : ε) : Throws (MonadExcept.throw x : LookupM schema ε α) x :=
  fun s => ⟨s, rfl⟩

/-- A sequence fails with its first part. -/
theorem Throws.bind {q : LookupM schema ε α} {f : α → LookupM schema ε β} {x : ε}
    (h : Throws q x) : Throws (q >>= f) x := by
  intro s
  obtain ⟨s', hs⟩ := h s
  exact ⟨s', bind_of_error hs⟩

/-- A sequence fails with its second part once the first one is answered. -/
theorem Answers.bind_throws {q : LookupM schema ε α} {f : α → LookupM schema ε β} {a : α} {x : ε}
    (hq : Answers q a) (hf : Throws (f a) x) : Throws (q >>= f) x := by
  intro s
  obtain ⟨s₁, h₁⟩ := hq s
  obtain ⟨s₂, h₂⟩ := hf s₁
  exact ⟨s₂, (bind_of_ok h₁).trans h₂⟩

/-- The check `q` fails with `x` if `p` holds, and passes if not. -/
structure Decides (q : LookupM schema ε Unit) (p : Prop) (x : ε) : Prop where
  pass : ¬ p → Answers q ()
  fail : p → Throws q x

variable {f : α → LookupM schema ε Unit} {p : α → Prop} {l : List α}

/-- A loop of checks passes if all of them pass, and fails with the first that fails. -/
theorem Decides.forM_first {x : α → ε} (h : ∀ a ∈ l, Decides (f a) (p a) (x a)) :
    (Answers (l.forM f) () ∧ ∀ a ∈ l, ¬ p a) ∨
      ∃ before a after, l = before ++ a :: after ∧ (∀ b ∈ before, ¬ p b) ∧ p a ∧
        Throws (l.forM f) (x a) := by
  induction l with
  | nil => exact .inl ⟨.pure _, by simp⟩
  | cons a l ih =>
    have ha := h a (.head _)
    by_cases hp : p a
    · exact .inr ⟨[], a, l, rfl, by simp, hp, (ha.fail hp).bind⟩
    rcases ih fun b hb => h b (List.mem_cons_of_mem _ hb) with
      ⟨hrest, hnone⟩ | ⟨before, b, after, rfl, hbefore, hb, hrest⟩
    · exact .inl ⟨(ha.pass hp).bind hrest, List.forall_mem_cons.2 ⟨hp, hnone⟩⟩
    · exact .inr ⟨a :: before, b, after, rfl, List.forall_mem_cons.2 ⟨hp, hbefore⟩, hb,
        (ha.pass hp).bind_throws hrest⟩

/-- A loop of checks that fail with the same error. -/
theorem Decides.forM {x : ε} (h : ∀ a ∈ l, Decides (f a) (p a) x) :
    Decides (l.forM f) (∃ a ∈ l, p a) x := by
  rcases Decides.forM_first h with ⟨hpass, hnone⟩ | ⟨before, a, after, rfl, -, ha, hfail⟩
  · exact ⟨fun _ => hpass, fun ⟨a, hmem, ha⟩ => absurd ha (hnone a hmem)⟩
  · exact ⟨fun hnot => absurd ⟨a, by simp, ha⟩ hnot, fun _ => hfail⟩

/-- Two conditions are compared. -/
theorem overlap_decides {c c' : Name} (hc : schema.Composite c) (hc' : schema.Composite c')
    (error : BuildError) :
    Decides (do if ← (overlap c c').asked then throw error : LookupM schema BuildError Unit)
      (schema.Overlap c c') error := by
  refine ⟨fun ho => ?_, fun ho => ?_⟩
  · have hover := overlap_answers (r := false) hc hc' (by simp [ho])
    exact hover.asked.bind (.pure _)
  · have hover := overlap_answers (r := true) hc hc' (by simp [ho])
    exact hover.asked.bind_throws (.throw error)

end LookupM

open LookupM (Throws Decides)

/-! ## Conflicts -/

section
variable (schema : Schema)

/-- The fields have one response key but different types, under conditions that overlap. -/
structure EntityField.Conflicts (existing incoming : EntityField) : Prop where
  key : existing.key = incoming.key
  type : existing.type ≠ incoming.type
  overlap : ∃ c ∈ existing.conditions, ∃ c' ∈ incoming.conditions, schema.Overlap c c'

/-- The error says that the entity does not take the field, because of the first of its own fields
that conflicts with it. -/
def Entity.Refuses (e : Entity) (f : EntityField) (error : BuildError) : Prop :=
  ∃ before x after, e.fields.values = before ++ x :: after ∧
    (∀ y ∈ before, ¬ y.Conflicts schema f) ∧ x.Conflicts schema f ∧
    error = .mergeConflict e.location f.key x.type f.type

/-- The entity `e'` is `e` with the field `f` taken in. -/
structure Entity.Takes (e : Entity) (f : EntityField) (e' : Entity) : Prop where
  /-- Only the fields change. -/
  rest : e' = { e with fields := e'.fields }
  /-- A present field keeps its place, and a new one comes last. -/
  keys : e'.fields.keys =
    if f.fieldKey ∈ e.fields.keys then e.fields.keys else e.fields.keys ++ [f.fieldKey]
  others : ∀ key, key ≠ f.fieldKey → e'.fields.find? key = e.fields.find? key
  /-- All but the conditions is taken over from the present field, or else from `f`. -/
  held : ∃ m, e'.fields.find? f.fieldKey = some m ∧
    m = match e.fields.find? f.fieldKey with
      | some x => { x with conditions := m.conditions, child := x.child <|> f.child }
      | none => { f with conditions := m.conditions }
  cover : ∀ o, Cover schema (e'.conditionsAt f.fieldKey) o ↔
    Cover schema (e.conditionsAt f.fieldKey) o ∨ Cover schema f.conditions o
  /-- The conditions are those that are left of what was there and what came in. -/
  leads : Leads schema ({c | c ∈ e.conditionsAt f.fieldKey} ∪ {c | c ∈ f.conditions})
    (e'.conditionsAt f.fieldKey)
  antichain : Antichain schema (e'.conditionsAt f.fieldKey)

end

section
variable {schema : Schema}

/-- Two fields are compared: the check fails exactly if they conflict. -/
theorem Entity.checkPair_decides {location : Location} {x f : EntityField}
    (hx : ∀ c ∈ x.conditions, schema.Composite c) (hf : ∀ c ∈ f.conditions, schema.Composite c) :
    Decides (checkPair location x f : LookupM schema BuildError Unit) (x.Conflicts schema f)
      (.mergeConflict location f.key x.type f.type) := by
  have hloop := Decides.forM (l := x.conditions.toList) fun c hc =>
    Decides.forM (l := f.conditions.toList) fun c' hc' =>
      LookupM.overlap_decides (hx c hc) (hf c' hc') (.mergeConflict location f.key x.type f.type)
  unfold checkPair
  split
  · next hpair =>
    refine ⟨fun _ => .pure _, fun h => ?_⟩
    simp [DeclaredType.mergesWith, h.key, h.type] at hpair
  · next hpair =>
    simp only [DeclaredType.mergesWith, not_or, Decidable.not_not, decide_eq_true_eq] at hpair
    exact ⟨fun h => hloop.pass fun ho => h ⟨hpair.1, hpair.2, ho⟩, fun h => hloop.fail h.overlap⟩

namespace Conditions

variable {C : Set Name} {before after : OrderedSet Name}

/-- What is left of an antichain is all of it. -/
theorem Leads.of_antichain (h : Antichain schema before) :
    Leads schema {c | c ∈ before} before where
  mem_iff c := by
    refine ⟨fun hc => ⟨hc, fun c' hc' hp => ?_⟩, Leading.mem⟩
    exact (h c hc c' hc' hp.1).symm
  cover c hc := ⟨c, hc, .refl c⟩

/-- What is left of any conditions is an antichain. -/
theorem Leads.antichain (h : Leads schema C after) : Antichain schema after := by
  intro a ha b hb hw
  have ha := (h.mem_iff a).1 ha
  have hb := (h.mem_iff b).1 hb
  by_cases hp : schema.Prevails a b
  · exact hb.eq_of_prevails a ha.mem hp
  · exact (ha.eq_of_prevails b hb.mem (.of_within hw hp)).symm

end Conditions

/-! ## What an entity is made of -/

variable {e e' : Entity} {f m : EntityField} {merged : List EntityField}

variable (schema) in
/-- The entity is a new one into which the fields were merged, first to last. Fragments may have
been noted in between. -/
inductive Entity.MadeOf : Entity → List EntityField → Prop
  | new (l : Location) : MadeOf (.new l) []
  | noted {e : Entity} {merged : List EntityField} (names : OrderedSet Name) :
      MadeOf e merged → MadeOf { e with mergedFragments := names } merged
  | merge {e : Entity} {merged : List EntityField} {f m : EntityField} :
      MadeOf e merged → Entity.Merge schema e f m →
      MadeOf { e with fields := e.fields.insert f.fieldKey m } (merged ++ [f])

namespace Entity.MadeOf

/-- A field that is merged is what the entity is made of then. -/
theorem mergeField (h : e.MadeOf schema merged)
    (hg : Gives (e.mergeField f : LookupM schema BuildError Entity) e') :
    e'.MadeOf schema (merged ++ [f]) := by
  obtain ⟨m, hm, rfl⟩ := Entity.mergeField_gives hg
  exact h.merge hm

/-- Each condition came in with a field of the same key. -/
theorem exists_condition (h : e.MadeOf schema merged) {key : FieldKey} {c : Name}
    (hc : c ∈ e.conditionsAt key) : ∃ g ∈ merged, g.fieldKey = key ∧ c ∈ g.conditions := by
  induction h with
  | new l => cases hc
  | noted names _ ih => exact ih hc
  | @merge e merged f m _ hm ih =>
    have hold : c ∈ e.conditionsAt key → ∃ g ∈ merged ++ [f], g.fieldKey = key ∧ c ∈ g.conditions :=
      fun hc => have ⟨g, hg, hgc⟩ := ih hc; ⟨g, List.mem_append_left _ hg, hgc⟩
    by_cases hk : key = f.fieldKey
    · subst hk
      simp only [Entity.conditionsAt, Dict.find?_insert_self] at hc
      rcases hm.joins.subset c hc with hc | hc
      · exact hold hc
      · exact ⟨f, by simp, rfl, hc⟩
    · simp only [Entity.conditionsAt, Dict.find?_insert, hk, if_false] at hc
      exact hold hc

/-- No condition of a field lies within another one. -/
theorem antichain (h : e.MadeOf schema merged) (key : FieldKey) :
    Antichain schema (e.conditionsAt key) := by
  induction h with
  | new l => exact fun a ha => nomatch ha
  | noted names _ ih => exact ih
  | @merge e merged f m _ hm ih =>
    by_cases hk : key = f.fieldKey
    · subst hk
      simp only [Entity.conditionsAt, Dict.find?_insert_self]
      exact hm.joins.antichain ih
    · simp only [Entity.conditionsAt, Dict.find?_insert, hk, if_false]
      exact ih

end Entity.MadeOf

/-! ## Outcomes -/

/-- A field that conflicts with nothing is taken in. -/
theorem Entity.exists_takes (hx : ∀ x ∈ e.fields.values, ∀ c ∈ x.conditions, schema.Composite c)
    (hanti : Antichain schema (e.conditionsAt f.fieldKey))
    (hf : ∀ c ∈ f.conditions, schema.Composite c)
    (hfree : ∀ x ∈ e.fields.values, ¬ x.Conflicts schema f) :
    ∃ e', Answers (e.mergeField f : LookupM schema BuildError Entity) e' ∧
      e.Takes schema f e' := by
  have hold : ∀ c ∈ {c | c ∈ e.conditionsAt f.fieldKey}, schema.Composite c := by
    intro c hc
    cases hfind : e.fields.find? f.fieldKey with
    | none => simp only [Entity.conditionsAt, hfind] at hc; cases hc
    | some x =>
      simp only [Entity.conditionsAt, hfind] at hc
      exact hx x (Dict.mem_values_iff.2 ⟨_, hfind⟩) c hc
  obtain ⟨cs, hinsert, hleads⟩ := Conditions.insertAll_leads hf hold (.of_antichain hanti)
  obtain ⟨m, hmcs, hmerge⟩ := Entity.mergeField_answers (e := e) (f := f) rfl
    (fun x hm => (checkPair_decides (hx x hm) hf).pass (hfree x hm)) hinsert
  obtain ⟨m', hm', heq⟩ := Entity.mergeField_gives hmerge.gives
  have hmm : m' = m := by
    have hfind := congrArg (fun e : Entity => e.fields.find? f.fieldKey) heq
    simp only [Dict.find?_insert_self] at hfind
    exact (Option.some.inj hfind).symm
  subst hmm
  have hat : Entity.conditionsAt { e with fields := e.fields.insert f.fieldKey m' } f.fieldKey =
      m'.conditions := by
    simp [Entity.conditionsAt]
  refine ⟨_, hmerge, rfl, Dict.keys_insert .., fun key hkey => ?_, ?_, fun o => ?_, ?_, ?_⟩
  · simp [Dict.find?_insert, hkey]
  · exact ⟨m', Dict.find?_insert_self .., hm'.rest⟩
  · rw [hat]
    exact hm'.joins.cover o
  · rw [hat, hmcs]
    exact hleads
  · rw [hat, hmcs]
    exact hleads.antichain

end

/-! ## Merging in place -/

/-- Work on an entity that is changed in place. What was changed before a failure stays changed. -/
abbrev EntityM (schema : Schema) := EStateM BuildError (Entity × Lookups schema)

namespace EntityM

variable {schema : Schema} {α : Type}

/-- A question, which leaves the entity alone. -/
def ask (question : LookupM schema BuildError α) : EntityM schema α := fun (e, s) =>
  match question s with
  | .ok a s => .ok a (e, s)
  | .error x s => .error x (e, s)

/-- Changes the field under a key, if there is one. -/
def modifyField (key : FieldKey) (change : EntityField → EntityField) : EntityM schema Unit :=
  fun (e, s) =>
    match e.fields.find? key with
    | some x => .ok () ({ e with fields := e.fields.insert key (change x) }, s)
    | none => .ok () (e, s)

/-- Inserts a condition into those of the field under a key. -/
def insertCondition (key : FieldKey) (condition : Name) : EntityM schema Unit := do
  let (e, _) ← get
  let conditions ← ask (Conditions.insert (e.conditionsAt key) condition).asked
  modifyField key fun x => { x with conditions }

end EntityM

section
variable {schema : Schema}

/-- The comparisons of a new field with those that are there. -/
def Entity.check (e : Entity) (f : EntityField) : LookupM schema BuildError Unit :=
  e.fields.values.forM fun existing => checkPair e.location existing f

/-- Merges a field into the entity, one change after the other. -/
def Entity.mergeInPlace (f : EntityField) : EntityM schema Unit := do
  let (e, _) ← get
  EntityM.ask (e.check f)
  if e.fields.contains f.fieldKey then
    f.conditions.toList.forM (EntityM.insertCondition f.fieldKey)
    EntityM.modifyField f.fieldKey fun x => { x with child := x.child <|> f.child }
  else
    let conditions ← EntityM.ask (Conditions.insertAll ∅ f.conditions.toList).asked
    modify fun (e, s) => ({ e with fields := e.fields.insert f.fieldKey { f with conditions } }, s)

variable {e e' : Entity} {f x : EntityField} {key : FieldKey} {s s' : Lookups schema}
  {error : BuildError}

/-- A question that is answered is answered as part of a build. -/
theorem LookupM.asked_of_ok {α : Type} {q : LookupM schema LookupError α} {a : α}
    (h : q s = .ok a s') : q.asked s = .ok a s' := by
  unfold LookupM.asked
  rw [h]

/-- A question that is answered as part of a build is answered. -/
theorem LookupM.ok_of_asked {α : Type} {q : LookupM schema LookupError α} {a : α}
    (h : q.asked s = .ok a s') : q s = .ok a s' := by
  unfold LookupM.asked at h
  split at h
  · next hq => cases h; exact hq
  · cases h

namespace EntityM

/-- A question is answered in place. -/
theorem ask_of_ok {α : Type} {q : LookupM schema BuildError α} {a : α} (h : q s = .ok a s') :
    ask q (e, s) = .ok a (e, s') := by
  simp [ask, h]

/-- A question that fails leaves the entity as it is. -/
theorem ask_of_error {α : Type} {q : LookupM schema BuildError α} (h : q s = .error error s') :
    ask q (e, s) = .error error (e, s') := by
  simp [ask, h]

/-- A present field is changed. -/
theorem modifyField_of_find? {change : EntityField → EntityField}
    (hx : e.fields.find? key = some x) :
    modifyField key change (e, s) =
      .ok () ({ e with fields := e.fields.insert key (change x) }, s) := by
  simp [modifyField, hx]

/-- A condition that is inserted in place. -/
theorem insertCondition_of_ok {c : Name} {cs : OrderedSet Name} (hx : e.fields.find? key = some x)
    (h : Conditions.insert x.conditions c s = .ok cs s') :
    insertCondition key c (e, s) =
      .ok () ({ e with fields := e.fields.insert key { x with conditions := cs } }, s') := by
  have hat : e.conditionsAt key = x.conditions := by simp [Entity.conditionsAt, hx]
  refine (bind_of_ok rfl).trans ?_
  rw [hat]
  exact (bind_of_ok (ask_of_ok (LookupM.asked_of_ok h))).trans (modifyField_of_find? hx)

/-- Conditions that are inserted in place, one after the other. -/
theorem forM_insertCondition {cs : OrderedSet Name} {l : List Name}
    (hx : e.fields.find? key = some x) (h : Conditions.insertAll x.conditions l s = .ok cs s') :
    l.forM (insertCondition key) (e, s) =
      .ok () ({ e with fields := e.fields.insert key { x with conditions := cs } }, s') := by
  induction l generalizing e x s with
  | nil =>
    cases h
    rw [Dict.insert_of_find? hx]
    rfl
  | cons c l ih =>
    rw [Conditions.insertAll, List.foldlM_cons] at h
    obtain ⟨mid, s₁, h₁, h₂⟩ := ok_of_bind h
    have hrest := ih (e := { e with fields := e.fields.insert key { x with conditions := mid } })
      (x := { x with conditions := mid }) (Dict.find?_insert_self ..) h₂
    simp only [Dict.insert_insert] at hrest
    exact (bind_of_ok (insertCondition_of_ok hx h₁)).trans hrest

end EntityM

namespace Entity

/-- A merge that succeeds does the same in place. -/
theorem mergeInPlace_of_ok (h : e.mergeField f s = .ok e' s') :
    mergeInPlace f (e, s) = .ok () (e', s') := by
  unfold mergeField at h
  obtain ⟨⟨⟩, s₁, h₁, h⟩ := ok_of_bind h
  refine (bind_of_ok rfl).trans ((bind_of_ok (EntityM.ask_of_ok h₁)).trans ?_)
  cases hx : e.fields.find? f.fieldKey with
  | some x =>
    simp only [hx] at h
    obtain ⟨cs, s₂, h₂, h⟩ := ok_of_bind h
    cases h
    rw [if_pos (Dict.contains_iff.2 (Dict.mem_keys_iff.2 ⟨x, hx⟩))]
    refine (bind_of_ok (EntityM.forM_insertCondition hx (LookupM.ok_of_asked h₂))).trans ?_
    rw [EntityM.modifyField_of_find? (Dict.find?_insert_self ..), Dict.insert_insert]
  | none =>
    simp only [hx] at h
    obtain ⟨cs, s₂, h₂, h⟩ := ok_of_bind h
    cases h
    rw [if_neg (by simpa using Dict.find?_eq_none_iff.1 hx)]
    exact (bind_of_ok (EntityM.ask_of_ok h₂)).trans rfl

/-- A merge that fails in the comparisons leaves the entity as it is, in place as well. -/
theorem mergeInPlace_of_error (h : e.check f s = .error error s') :
    e.mergeField f s = .error error s' ∧ mergeInPlace f (e, s) = .error error (e, s') :=
  ⟨bind_of_error h, (bind_of_ok rfl).trans (bind_of_error (EntityM.ask_of_error h))⟩

/-- A merge has one of two outcomes: the entity takes the field, or refuses it. -/
theorem MadeOf.mergeField_exact {merged : List EntityField} (he : e.MadeOf schema merged)
    (hmerged : ∀ g ∈ merged, ∀ c ∈ g.conditions, schema.Composite c)
    (hf : ∀ c ∈ f.conditions, schema.Composite c) (s : Lookups schema) :
    ((∃ error s', e.mergeField f s = .error error s') ↔
      ∃ x ∈ e.fields.values, x.Conflicts schema f) ∧
    (∀ error s', e.mergeField f s = .error error s' →
      e.Refuses schema f error ∧ mergeInPlace f (e, s) = .error error (e, s')) ∧
    ∀ e' s', e.mergeField f s = .ok e' s' →
      e.Takes schema f e' ∧ mergeInPlace f (e, s) = .ok () (e', s') := by
  have hx : ∀ x ∈ e.fields.values, ∀ c ∈ x.conditions, schema.Composite c := by
    intro x hx c hc
    obtain ⟨key, hx⟩ := Dict.mem_values_iff.1 hx
    have hat : c ∈ e.conditionsAt key := by simpa only [Entity.conditionsAt, hx] using hc
    obtain ⟨g, hg, -, hgc⟩ := he.exists_condition hat
    exact hmerged g hg c hgc
  have hchecks : ∀ x ∈ e.fields.values, Decides
      (checkPair e.location x f : LookupM schema BuildError Unit) (x.Conflicts schema f)
      (.mergeConflict e.location f.key x.type f.type) :=
    fun x hmem => checkPair_decides (hx x hmem) hf
  rcases Decides.forM_first hchecks with
    ⟨-, hfree⟩ | ⟨before, x, after, hvalues, hbefore, hconflict, hthrows⟩
  · obtain ⟨e₁, hanswers, htakes⟩ := exists_takes hx (he.antichain _) hf hfree
    obtain ⟨s₁, hs₁⟩ := hanswers s
    refine ⟨?_, fun error s' h => ?_, fun e' s' h => ?_⟩
    · rw [hs₁]
      simpa using hfree
    · rw [hs₁] at h
      cases h
    · refine ⟨?_, mergeInPlace_of_ok h⟩
      rw [hs₁] at h
      cases h
      exact htakes
  · obtain ⟨s₁, hs₁⟩ := hthrows s
    obtain ⟨herror, hplace⟩ := mergeInPlace_of_error hs₁
    refine ⟨?_, fun error s' h => ?_, fun e' s' h => ?_⟩
    · refine ⟨fun _ => ⟨x, ?_, hconflict⟩, fun _ => ⟨_, _, herror⟩⟩
      rw [hvalues]
      simp
    · rw [herror] at h
      cases h
      exact ⟨⟨before, x, after, hvalues, hbefore, hconflict, rfl⟩, hplace⟩
    · rw [herror] at h
      cases h

end Entity

end

namespace Sample

/-- The location that the one field of the operation leads to. -/
def nodeLocation : Location := (Location.ofOperation none "Query").append "node" "Node"

/-- The field `next` of the entity there, selected on the type `c`, which narrows it to itself. -/
def nextOn (c : Name) : EntityField :=
  .single "next" "next" (.named c true) (some (nodeLocation.append "next" c)) c

/-- The field of the object type is taken into a new entity. The one of the interface is refused
then, and nothing has changed. -/
theorem next_refused : ∃ e error s', (Entity.new nodeLocation).Takes schema (nextOn "Leaf") e ∧
    e.MadeOf schema [nextOn "Leaf"] ∧
    e.mergeField (nextOn "Node") (.fresh schema) = .error error s' ∧
    e.Refuses schema (nextOn "Node") error ∧
    Entity.mergeInPlace (nextOn "Node") (e, .fresh schema) = .error error (e, s') := by
  have hleaf : ∀ c ∈ (nextOn "Leaf").conditions, schema.Composite c := by decide +kernel
  have hnode : ∀ c ∈ (nextOn "Node").conditions, schema.Composite c := by decide +kernel
  have hshared : schema.Possible "Leaf" "Leaf" ∧ schema.Possible "Node" "Leaf" := by decide +kernel
  have hnew : (Entity.new nodeLocation).MadeOf schema [] := .new nodeLocation
  obtain ⟨hiff, -, hok⟩ := hnew.mergeField_exact (f := nextOn "Leaf") (by simp) hleaf
    (.fresh schema)
  cases hfirst : (Entity.new nodeLocation).mergeField (nextOn "Leaf") (.fresh schema) with
  | error error s =>
    obtain ⟨x, hx, -⟩ := hiff.1 ⟨error, s, hfirst⟩
    cases hx
  | ok e s =>
    have htakes := (hok e s hfirst).1
    have hmade : e.MadeOf schema [nextOn "Leaf"] := hnew.mergeField ⟨_, _, hfirst⟩
    obtain ⟨m, hm, hheld⟩ := htakes.held
    have hcover : Cover schema (e.conditionsAt (nextOn "Leaf").fieldKey) "Leaf" :=
      (htakes.cover "Leaf").2 (.inr ⟨"Leaf", .head _, hshared.1⟩)
    simp only [Entity.conditionsAt, hm] at hcover
    obtain ⟨c, hc, ho⟩ := hcover
    have hconflict : m.Conflicts schema (nextOn "Node") := by
      refine ⟨?_, ?_, c, hc, "Node", .head _, .inr ⟨"Leaf", ho, hshared.2⟩⟩
      · rw [hheld]
        rfl
      · rw [hheld]
        exact (by decide : DeclaredType.named "Leaf" true ≠ .named "Node" true)
    obtain ⟨hiff', herror, -⟩ := hmade.mergeField_exact (by simpa using hleaf) hnode (.fresh schema)
    obtain ⟨error, s', hs'⟩ := hiff'.2 ⟨m, Dict.mem_values_iff.2 ⟨_, hm⟩, hconflict⟩
    exact ⟨e, error, s', htakes, hmade, hs', herror error s' hs'⟩

end Sample

end EntityGraph
