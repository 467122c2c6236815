import EntityGraph.Proofs.Questions.Steady
import EntityGraph.Proofs.Request.Requests

/-!
# Normal forms and single object types

What selections come to for one object type is said without conditions being narrowed: a walk in
document order enters an inline fragment exactly if the object type satisfies its condition
(`Selection.enteredAll`). The normal form lists the selections of an inline fragment once for each
condition that it is narrowed to, and for one object type only one of the copies counts, because the
conditions of an intersection are apart (`LookupM.intersect_apart`). So the normal selections whose
condition an object type satisfies are the walk for it, in order and with nothing twice
(`Selection.normalizeAll_entered`). Which inline fragments are listed as unreachable is said by the
places inside the selections and the conditions that are in force there (`Selection.InForce`).
-/

namespace EntityGraph

open LookupM (Gives)

/-! ## Intersections -/

namespace Schema

/-- `c'` is one of the conditions that the condition `c` is narrowed to inside a fragment on `own`:
the narrower one of the two if one lies within the other, and else an object type that they share. -/
inductive Narrows (schema : Schema) (c own : Name) : Name → Prop
  | outer : schema.Within c own → Narrows schema c own c
  | inner : ¬ schema.Within c own → schema.Within own c → Narrows schema c own own
  | shared {o : Name} : ¬ schema.Within c own → ¬ schema.Within own c → schema.Possible c o →
      schema.Possible own o → Narrows schema c own o

/-- Nothing is left of a condition inside a fragment: they share no object type, and neither of them
lies within the other one, as a condition that nothing satisfies would. -/
structure Excludes (schema : Schema) (c own : Name) : Prop where
  apart : ∀ o, schema.Possible c o → ¬ schema.Possible own o
  outer : ¬ schema.Within c own
  inner : ¬ schema.Within own c

end Schema

namespace LookupM

variable {schema : Schema} {a b c : Name} {cs : List Name}

/-- The three answers of an intersection. -/
theorem intersect_cases (h : Gives (intersect a b : LookupM schema LookupError _) cs) :
    (schema.Within a b ∧ cs = [a]) ∨
    (¬ schema.Within a b ∧ schema.Within b a ∧ cs = [b]) ∨
    (¬ schema.Within a b ∧ ¬ schema.Within b a ∧ cs.Nodup ∧
      ∀ o, o ∈ cs ↔ schema.Possible a o ∧ schema.Possible b o) := by
  unfold intersect at h
  obtain ⟨r, hr, h⟩ := h.of_bind
  have hab := within_gives hr
  split at h
  · next hw =>
    cases h.of_pure
    exact .inl ⟨hab.1 hw, rfl⟩
  next hw =>
  obtain ⟨r', hr', h⟩ := h.of_bind
  have hba := within_gives hr'
  split at h
  · next hw' =>
    cases h.of_pure
    exact .inr (.inl ⟨fun hin => hw (hab.2 hin), hba.1 hw', rfl⟩)
  · next hw' =>
    obtain ⟨y, x, hy, hx, rfl⟩ := possibleTypeNames_pair h
    refine .inr (.inr ⟨fun hin => hw (hab.2 hin), fun hin => hw' (hba.2 hin),
      x.nodup.filter _, fun o => ?_⟩)
    simp [Schema.possible_iff hx, Schema.possible_iff hy]

/-- An intersection consists of the conditions that the first one is narrowed to. -/
theorem mem_intersect_iff (h : Gives (intersect a b : LookupM schema LookupError _) cs) :
    c ∈ cs ↔ schema.Narrows a b c := by
  obtain ⟨hab, rfl⟩ | ⟨hab, hba, rfl⟩ | ⟨hab, hba, -, hmem⟩ := intersect_cases h
  · rw [List.mem_singleton]
    constructor
    · rintro rfl
      exact .outer hab
    · rintro (_ | ⟨hn, _⟩ | ⟨hn, _⟩)
      · rfl
      · exact absurd hab hn
      · exact absurd hab hn
  · rw [List.mem_singleton]
    constructor
    · rintro rfl
      exact .inner hab hba
    · rintro (hin | _ | ⟨_, hn, _⟩)
      · exact absurd hin hab
      · rfl
      · exact absurd hba hn
  · rw [hmem]
    constructor
    · exact fun ⟨ha, hb⟩ => .shared hab hba ha hb
    · rintro (hin | ⟨_, hin⟩ | ⟨_, _, ha, hb⟩)
      · exact absurd hin hab
      · exact absurd hin hba
      · exact ⟨ha, hb⟩

/-- An intersection is empty exactly if the one condition excludes the other one. -/
theorem intersect_eq_nil_iff (h : Gives (intersect a b : LookupM schema LookupError _) cs) :
    cs = [] ↔ schema.Excludes a b := by
  rw [List.eq_nil_iff_forall_not_mem]
  simp only [mem_intersect_iff h]
  constructor
  · intro hnone
    have hab : ¬ schema.Within a b := fun hin => hnone _ (.outer hin)
    have hba : ¬ schema.Within b a := fun hin => hnone _ (.inner hab hin)
    exact ⟨fun o ha hb => hnone o (.shared hab hba ha hb), hab, hba⟩
  · rintro hex c (hin | ⟨_, hin⟩ | ⟨_, _, ha, hb⟩)
    · exact hex.outer hin
    · exact hex.inner hin
    · exact hex.apart c ha hb

/-- No object type satisfies two conditions of an intersection. -/
theorem intersect_apart (hs : schema.Coherent)
    (h : Gives (intersect a b : LookupM schema LookupError _) cs) :
    cs.Pairwise fun c c' => ∀ o, schema.Possible c o → ¬ schema.Possible c' o := by
  obtain ⟨-, rfl⟩ | ⟨-, -, rfl⟩ | ⟨-, -, hnodup, hmem⟩ := intersect_cases h
  · exact List.pairwise_singleton ..
  · exact List.pairwise_singleton ..
  · -- shared object types are satisfied by themselves only
    refine hnodup.imp_of_mem fun hc hc' hne o ho ho' => hne ?_
    rw [← ((hs.possible_self ((hmem _).1 hc).1).2 o).1 ho,
      ← ((hs.possible_self ((hmem _).1 hc').1).2 o).1 ho']

end LookupM

/-! ## The walk for an object type -/

namespace Selection

section
variable (schema : Schema) (o : Name)

mutual

/-- What a selection comes to for the object type `o`: itself, or for an inline fragment what its
selections come to, if it is entered. -/
def entered : Selection → List Selection
  | field aliasName name location selections => [field aliasName name location selections]
  | spread fragment location => [spread fragment location]
  | inline none _ selections => enteredAll selections
  | inline (some own) _ selections => if schema.Possible own o then enteredAll selections else []

/-- What selections come to for the object type `o`, in document order. -/
def enteredAll : List Selection → List Selection
  | [] => []
  | s :: rest => entered s ++ enteredAll rest

end

end

end Selection

namespace NormalSelection

/-- The selection that is listed; none if it can never apply. -/
def selection? : NormalSelection → Option Selection
  | field aliasName name location selections _ => some (.field aliasName name location selections)
  | spread fragment location _ => some (.spread fragment location)
  | unreachable _ _ _ => none

/-- The selection that is listed, if the object type `o` satisfies its condition. -/
def selectionFor? (schema : Schema) (o : Name) (n : NormalSelection) : Option Selection :=
  if schema.Possible n.condition o then n.selection? else none

end NormalSelection

section

variable {schema : Schema} {c c' o : Name} {selections : List Selection}
  {normal : List NormalSelection}

/-- A field or spread of a normal form has a condition that lies within the enclosing one. -/
theorem Emits.inside (hs : schema.Coherent) {n : NormalSelection}
    (h : Emits schema c selections n) (hc : schema.Composite c) : n.Inside schema c := by
  induction h with
  | field | spread => exact ⟨hc, .refl _⟩
  | inline _ _ ih => exact ih hc
  | narrowed _ hi hm _ ih =>
    have hmeet := LookupM.intersect_gives hs hc hi
    exact (ih (hmeet.composite _ hm)).trans (hmeet.left _ hm)
  | excluded => trivial

/-- A normal form lists nothing for an object type that does not satisfy the enclosing condition. -/
theorem Selection.normalizeAll_filterMap_eq_nil (hs : schema.Coherent) (hc : schema.Composite c)
    (h : Gives (Selection.normalizeAll c selections : LookupM schema LookupError _) normal)
    (ho : ¬ schema.Possible c o) : normal.filterMap (·.selectionFor? schema o) = [] := by
  rw [List.filterMap_eq_nil_iff]
  intro n hn
  have hinside := (Selection.normalizeAll_emits selections h n hn).inside hs hc
  cases n with
  | field | spread => exact if_neg fun hpossible => ho (hinside.2 o hpossible)
  | unreachable => exact ite_self _

/-- Of parts of which at most one counts, the one that counts is all that counts. -/
theorem filterMap_flatten_of_apart {α β γ : Type} {p : α → Prop} {f : β → Option γ} {l : List γ}
    {as : List α} {parts : List (List β)} (hapart : as.Pairwise fun a a' => p a → ¬ p a')
    (h : List.Forall₂ (fun a part => (p a → part.filterMap f = l) ∧
      (¬ p a → part.filterMap f = [])) as parts) :
    ((∃ a ∈ as, p a) → parts.flatten.filterMap f = l) ∧
      ((¬ ∃ a ∈ as, p a) → parts.flatten.filterMap f = []) := by
  induction h with
  | nil => simp
  | @cons a part as parts hpart _ ih =>
    obtain ⟨hhead, htail⟩ := List.pairwise_cons.1 hapart
    obtain ⟨ihone, ihnone⟩ := ih htail
    rw [List.flatten_cons, List.filterMap_append]
    by_cases ha : p a
    · have hno : ¬ ∃ a' ∈ as, p a' := fun ⟨a', hm, ha'⟩ => hhead a' hm ha ha'
      rw [hpart.1 ha, ihnone hno, List.append_nil]
      exact ⟨fun _ => rfl, fun hnone => absurd ⟨a, .head _, ha⟩ hnone⟩
    · have hiff : (∃ a' ∈ a :: as, p a') ↔ ∃ a' ∈ as, p a' := by simp [ha]
      rw [hpart.2 ha, List.nil_append, hiff]
      exact ⟨ihone, ihnone⟩

namespace Selection

mutual

/-- The normal form of a selection is what it comes to, for each object type. -/
theorem normalize_entered (hs : schema.Coherent) : ∀ (s : Selection) {c : Name}
    {normal : List NormalSelection}, schema.Composite c →
    Gives (normalize c s : LookupM schema LookupError _) normal → schema.Possible c o →
    normal.filterMap (·.selectionFor? schema o) = entered schema o s
  | .field .., c, normal, _, h, ho => by
    cases h.of_pure
    exact List.filterMap_cons_some (if_pos ho)
  | .spread .., c, normal, _, h, ho => by
    cases h.of_pure
    exact List.filterMap_cons_some (if_pos ho)
  | .inline none _ inner, c, normal, hc, h, ho => normalizeAll_entered hs inner hc h ho
  | .inline (some own) _ inner, c, normal, hc, h, ho => by
    rw [normalize] at h
    obtain ⟨narrowed, hi, h⟩ := h.of_bind
    have hmeet := LookupM.intersect_gives hs hc hi
    have hown : (∃ c' ∈ narrowed, schema.Possible c' o) ↔ schema.Possible own o :=
      (hmeet.possible o).trans (and_iff_right ho)
    rw [entered]
    split at h
    · next hnil =>
      obtain ⟨_, -, h⟩ := h.of_bind
      cases h.of_pure
      have hno : ¬ schema.Possible own o := by
        rw [← hown, List.isEmpty_iff.1 hnil]
        simp
      rw [if_neg hno]
      exact List.filterMap_cons_none (ite_self _)
    · obtain ⟨parts, hp, h⟩ := h.of_bind
      cases h.of_pure
      -- of the copies for the narrowed conditions at most one is made for the object type
      have hparts := (List.forall₂_and_left _ _).2 ⟨hmeet.composite, hp.of_mapM⟩
      obtain ⟨hone, hnone⟩ := filterMap_flatten_of_apart (p := (schema.Possible · o))
        (f := (·.selectionFor? schema o)) (l := enteredAll schema o inner)
        ((LookupM.intersect_apart hs hi).imp fun hapart => hapart o)
        (hparts.imp fun c' part ⟨hc', hpart⟩ =>
          ⟨normalizeAll_entered hs inner hc' hpart, normalizeAll_filterMap_eq_nil hs hc' hpart⟩)
      rw [hown] at hone hnone
      split
      · next hpossible => exact hone hpossible
      · next hno => exact hnone hno

/-- The normal form of selections is the walk over them, for each object type. -/
theorem normalizeAll_entered (hs : schema.Coherent) : ∀ (selections : List Selection) {c : Name}
    {normal : List NormalSelection}, schema.Composite c →
    Gives (normalizeAll c selections : LookupM schema LookupError _) normal →
    schema.Possible c o →
    normal.filterMap (·.selectionFor? schema o) = enteredAll schema o selections
  | [], c, normal, _, h, _ => by
    cases h.of_pure
    rfl
  | s :: rest, c, normal, hc, h, ho => by
    obtain ⟨first, hf, h⟩ := h.of_bind
    obtain ⟨tail, ht, h⟩ := h.of_bind
    cases h.of_pure
    rw [List.filterMap_append, normalize_entered hs s hc hf ho,
      normalizeAll_entered hs rest hc ht ho, enteredAll]

end

/-! ## Places inside selections -/

/-- Inside selections that are made under the condition `c`, the selections `place` stand under the
condition `c'`: they are reached through inline fragments, each of which narrows the condition. -/
inductive InForce (schema : Schema) : Name → List Selection → Name → List Selection → Prop
  | here {c : Name} {selections : List Selection} : InForce schema c selections c selections
  | inline {c c' : Name} {selections inner place : List Selection} {location : SourceLocation} :
      .inline none location inner ∈ selections → InForce schema c inner c' place →
      InForce schema c selections c' place
  | narrowed {c c₁ c' own : Name} {selections inner place : List Selection}
      {location : SourceLocation} :
      .inline (some own) location inner ∈ selections → schema.Narrows c own c₁ →
      InForce schema c₁ inner c' place → InForce schema c selections c' place

/-- An inline fragment that is listed as unreachable stands where it is excluded. -/
theorem exists_inForce {n : NormalSelection} (h : Emits schema c selections n)
    {location : SourceLocation} {inner : List Selection} {own : Name}
    (hn : n = .unreachable location inner own) :
    ∃ c' place, InForce schema c selections c' place ∧
      .inline (some own) location inner ∈ place ∧ schema.Excludes c' own := by
  induction h with
  | field | spread => cases hn
  | inline hm _ ih =>
    obtain ⟨c', place, hplace, hrest⟩ := ih hn
    exact ⟨c', place, .inline hm hplace, hrest⟩
  | narrowed hm hi hc _ ih =>
    obtain ⟨c', place, hplace, hrest⟩ := ih hn
    exact ⟨c', place, .narrowed hm ((LookupM.mem_intersect_iff hi).1 hc) hplace, hrest⟩
  | excluded hm hi =>
    cases hn
    exact ⟨_, _, .here, hm, (LookupM.intersect_eq_nil_iff hi).1 rfl⟩

/-- The normal form of selections lists that of each of them. -/
theorem exists_normalize_of_mem {s : Selection} :
    ∀ {selections : List Selection} {normal : List NormalSelection},
      Gives (normalizeAll c selections : LookupM schema LookupError _) normal → s ∈ selections →
      ∃ part, Gives (normalize c s : LookupM schema LookupError _) part ∧ part ⊆ normal
  | s' :: rest, normal, h, hm => by
    obtain ⟨first, hf, h⟩ := h.of_bind
    obtain ⟨tail, ht, h⟩ := h.of_bind
    cases h.of_pure
    cases hm with
    | head => exact ⟨first, hf, List.subset_append_left ..⟩
    | tail _ hm =>
      obtain ⟨part, hp, hsub⟩ := exists_normalize_of_mem ht hm
      exact ⟨part, hp, List.Subset.trans hsub (List.subset_append_right ..)⟩

/-- The normal form of selections lists that of every place inside them. -/
theorem InForce.exists_normalizeAll {place : List Selection}
    (h : InForce schema c selections c' place) :
    ∀ {normal : List NormalSelection},
      Gives (normalizeAll c selections : LookupM schema LookupError _) normal →
      ∃ part, Gives (normalizeAll c' place : LookupM schema LookupError _) part ∧
        part ⊆ normal := by
  induction h with
  | here => exact fun hg => ⟨_, hg, List.Subset.refl _⟩
  | inline hm _ ih =>
    intro normal hg
    obtain ⟨part, hp, hsub⟩ := exists_normalize_of_mem hg hm
    obtain ⟨part', hp', hsub'⟩ := ih hp
    exact ⟨part', hp', List.Subset.trans hsub' hsub⟩
  | narrowed hm hnarrows _ ih =>
    intro normal hg
    obtain ⟨part, hp, hsub⟩ := exists_normalize_of_mem hg hm
    rw [normalize] at hp
    obtain ⟨cs, hi, hp⟩ := hp.of_bind
    have hc := (LookupM.mem_intersect_iff hi).2 hnarrows
    split at hp
    · next hnil =>
      rw [List.isEmpty_iff.1 hnil] at hc
      cases hc
    · obtain ⟨parts, hparts, hp⟩ := hp.of_bind
      cases hp.of_pure
      obtain ⟨copy, hcopy, hgives⟩ := exists_of_forall₂ hparts.of_mapM _ hc
      obtain ⟨part', hp', hsub'⟩ := ih hgives
      exact ⟨part', hp', fun n hn => hsub (List.mem_flatten.2 ⟨copy, hcopy, hsub' hn⟩)⟩

/-- An inline fragment is listed as unreachable exactly where it is excluded. -/
theorem unreachable_mem_iff
    (h : Gives (normalizeAll c selections : LookupM schema LookupError _) normal)
    {location : SourceLocation} {inner : List Selection} {own : Name} :
    .unreachable location inner own ∈ normal ↔
      ∃ c' place, InForce schema c selections c' place ∧
        .inline (some own) location inner ∈ place ∧ schema.Excludes c' own := by
  constructor
  · exact fun hm => exists_inForce (normalizeAll_emits selections h _ hm) rfl
  · rintro ⟨c', place, hplace, hm, hexcludes⟩
    obtain ⟨part, hp, hsub⟩ := hplace.exists_normalizeAll h
    obtain ⟨part', hp', hsub'⟩ := exists_normalize_of_mem hp hm
    rw [normalize] at hp'
    obtain ⟨cs, hi, hp'⟩ := hp'.of_bind
    rw [if_pos (List.isEmpty_iff.2 ((LookupM.intersect_eq_nil_iff hi).2 hexcludes))] at hp'
    obtain ⟨_, -, hp'⟩ := hp'.of_bind
    cases hp'.of_pure
    exact hsub (hsub' (.head _))

end Selection

/-- A normal form of selections on a composite type is exact. For every object type that the type
stands for, the fields and spreads whose condition the object type satisfies are those of the walk
over the selections that enters an inline fragment exactly if the object type satisfies its
condition, in the same order and each as often. All conditions of fields and spreads lie within the
type. An inline fragment is listed as unreachable exactly if it stands somewhere where it and the
condition in force share no object type, and neither of them lies within the other one. -/
theorem Schema.Built.normalizeAll_exact (hs : schema.Built) (hc : schema.Composite c)
    {s s' : Lookups schema} (h : Selection.normalizeAll c selections s = .ok normal s') :
    (∀ o, schema.Possible c o →
      normal.filterMap (·.selectionFor? schema o) = Selection.enteredAll schema o selections) ∧
    (∀ n ∈ normal, n.selection?.isSome = true →
      schema.Composite n.condition ∧ schema.Within n.condition c) ∧
    ∀ location inner own, NormalSelection.unreachable location inner own ∈ normal ↔
      ∃ c' place, Selection.InForce schema c selections c' place ∧
        .inline (some own) location inner ∈ place ∧ schema.Excludes c' own := by
  have hgives : Gives (Selection.normalizeAll c selections : LookupM schema LookupError _) normal :=
    ⟨s, s', h⟩
  refine ⟨fun o ho => Selection.normalizeAll_entered hs.coherent selections hc hgives ho,
    fun n hn hsome => ?_, fun location inner own => Selection.unreachable_mem_iff hgives⟩
  have hinside := (Selection.normalizeAll_emits selections hgives n hn).inside hs.coherent hc
  cases n with
  | field | spread => exact hinside
  | unreachable => cases hsome

end

/-! ## Two interfaces that share some object types -/

namespace Crossing

open Grammar (Definition)

/-- Two interfaces of which each has an object type of its own, and two object types that implement
both. -/
def definitions : List Definition := [
  Sample.type "North" (.interface [] [Sample.field "id" (.named "ID")]),
  Sample.type "East" (.interface [] [Sample.field "id" (.named "ID")]),
  Sample.type "Top" (.object ["North"] [Sample.field "id" (.named "ID")]),
  Sample.type "Left" (.object ["North", "East"] [Sample.field "id" (.named "ID")]),
  Sample.type "Right" (.object ["North", "East"] [Sample.field "id" (.named "ID")]),
  Sample.type "Bottom" (.object ["East"] [Sample.field "id" (.named "ID")]),
  Sample.type "Query" (.object [] [Sample.field "north" (.named "North")])]

/-- The definitions make up a schema. -/
theorem build?_isSome : (Sample.build? definitions).isSome = true := by decide +kernel

/-- The schema. -/
def schema : Schema := (Sample.build? definitions).get build?_isSome

/-- The schema is one that was built. -/
theorem built : schema.Built := Sample.built_of_build? (Option.some_get build?_isSome).symm

/-- Selections on the other interface, of which one can apply to one of the shared object types
only, and one to neither. -/
def crossing : List Selection := [
  .field (some "near") "id" Sample.place [],
  .inline (some "Left") Sample.place Sample.leaf,
  .inline (some "Top") Sample.place Sample.leaf]

/-- Selections on one interface. -/
def selections : List Selection :=
  [.inline (some "East") Sample.place crossing, .spread "Parts" Sample.place]

/-- The selections have a normal form. -/
theorem returned?_isSome :
    (Sample.returned? (Selection.normalizeAll "North" selections (.fresh schema))).isSome =
      true := by
  decide +kernel

/-- Although the other interface is entered once for each shared object type, each of these has the
selections that are made for it once, and the fragment for another object type is unreachable. -/
theorem crossing_exact : schema.Built ∧ schema.Composite "North" ∧
    ∃ normal s', Selection.normalizeAll "North" selections (.fresh schema) = .ok normal s' ∧
      normal.filterMap (·.selectionFor? schema "Left") =
        [.field (some "near") "id" Sample.place [], .field none "id" Sample.place [],
          .spread "Parts" Sample.place] ∧
      normal.filterMap (·.selectionFor? schema "Right") =
        [.field (some "near") "id" Sample.place [], .spread "Parts" Sample.place] ∧
      .unreachable Sample.place Sample.leaf "Top" ∈ normal := by
  have hc : schema.Composite "North" := by decide +kernel
  have hleft : schema.Possible "North" "Left" ∧ schema.Possible "East" "Left" ∧
      schema.Possible "Left" "Left" ∧ ¬ schema.Possible "Top" "Left" := by decide +kernel
  have hright : schema.Possible "North" "Right" ∧ schema.Possible "East" "Right" ∧
      ¬ schema.Possible "Left" "Right" ∧ ¬ schema.Possible "Top" "Right" := by decide +kernel
  have hcross : ¬ schema.Within "North" "East" ∧ ¬ schema.Within "East" "North" ∧
      ¬ schema.Within "Left" "Top" ∧ ¬ schema.Within "Top" "Left" := by decide +kernel
  obtain ⟨⟨normal, s'⟩, hreturned⟩ := Option.isSome_iff_exists.1 returned?_isSome
  have h := Sample.returned?_eq_some hreturned
  obtain ⟨hentered, -, hunreachable⟩ := built.normalizeAll_exact hc h
  have hexcludes : schema.Excludes "Left" "Top" := by
    refine ⟨fun o ho ho' => hleft.2.2.2 ?_, hcross.2.2.1, hcross.2.2.2⟩
    rwa [((built.coherent.possible_self hleft.1).2 o).1 ho] at ho'
  refine ⟨built, hc, normal, s', h, ?_, ?_, (hunreachable ..).2 ⟨"Left", crossing, ?_, ?_⟩⟩
  · rw [hentered "Left" hleft.1]
    simp [Selection.enteredAll, Selection.entered, selections, crossing, Sample.leaf, hleft]
  · rw [hentered "Right" hright.1]
    simp [Selection.enteredAll, Selection.entered, selections, crossing, hright]
  · exact .narrowed (.head _) (.shared hcross.1 hcross.2.1 hleft.1 hleft.2.1) .here
  · exact ⟨by simp [crossing], hexcludes⟩

end Crossing

end EntityGraph
