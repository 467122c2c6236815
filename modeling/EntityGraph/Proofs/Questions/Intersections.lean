import EntityGraph.Proofs.Document.Dissolving

/-!
# Intersections of conditions

An intersection of two type conditions is a list of conditions, and it is intersected further member
by member. A `Combination` is a course of such steps, with conditions at its leaves. What it comes to
divides the object types that satisfy all its conditions among conditions that no object type
satisfies two of (`Schema.Divides`), so it stands for the same object types whatever the order and
the grouping of the conditions (`Combination.intersect_divides`). For two conditions the list itself
is known as well (`Schema.Built.intersect_exact`).
-/

namespace EntityGraph

open LookupM (Answers Gives)

namespace Schema

/-- No object type satisfies both conditions. -/
def Apart (schema : Schema) (c c' : Name) : Prop :=
  ∀ o, schema.Possible c o → ¬ schema.Possible c' o

/-- The conditions `cs` divide the object types that satisfy all of `conditions` among them. -/
structure Divides (schema : Schema) (conditions cs : List Name) : Prop where
  composite : ∀ c ∈ cs, schema.Composite c
  within : ∀ c ∈ cs, ∀ d ∈ conditions, schema.Within c d
  possible : ∀ o, (∃ c ∈ cs, schema.Possible c o) ↔ ∀ d ∈ conditions, schema.Possible d o
  apart : cs.Pairwise schema.Apart

namespace Divides

variable {schema : Schema} {conditions conditions' more as cs : List Name}

/-- A condition stands for itself. -/
theorem singleton {c : Name} (hc : schema.Composite c) : schema.Divides [c] [c] where
  composite := by simpa using hc
  within := by simpa using Within.refl c
  possible := by simp
  apart := List.pairwise_singleton ..

/-- Neither the order nor the repetition of the conditions matters. -/
theorem congr (h : schema.Divides conditions cs) (hsame : ∀ d, d ∈ conditions ↔ d ∈ conditions') :
    schema.Divides conditions' cs := by
  refine ⟨h.composite, fun c hc d hd => h.within c hc d ((hsame d).2 hd), fun o => ?_, h.apart⟩
  rw [h.possible]
  exact forall_congr' fun d => imp_congr_left (hsame d)

/-- Each of some conditions is divided further by the same additional conditions. -/
theorem flatten {parts : List (List Name)}
    (hparts : List.Forall₂ (fun a part => schema.Divides (a :: more) part) as parts)
    (h : schema.Divides conditions as) : schema.Divides (conditions ++ more) parts.flatten := by
  have hof : ∀ c ∈ parts.flatten, ∃ a ∈ as, ∃ part, schema.Divides (a :: more) part ∧ c ∈ part := by
    intro c hc
    obtain ⟨part, hpart, hc⟩ := List.mem_flatten.1 hc
    obtain ⟨a, ha, hdivides⟩ := exists_of_forall₂ hparts.flip part hpart
    exact ⟨a, ha, part, hdivides, hc⟩
  refine ⟨fun c hc => ?_, fun c hc d hd => ?_, fun o => ⟨?_, fun ho => ?_⟩, ?_⟩
  · obtain ⟨a, -, part, hdivides, hc⟩ := hof c hc
    exact hdivides.composite c hc
  · obtain ⟨a, ha, part, hdivides, hc⟩ := hof c hc
    rcases List.mem_append.1 hd with hd | hd
    · exact (hdivides.within c hc a (.head _)).trans (h.within a ha d hd)
    · exact hdivides.within c hc d (List.mem_cons_of_mem _ hd)
  · rintro ⟨c, hc, ho⟩ d hd
    obtain ⟨a, ha, part, hdivides, hc⟩ := hof c hc
    rcases List.mem_append.1 hd with hd | hd
    · exact h.within a ha d hd o (hdivides.within c hc a (.head _) o ho)
    · exact hdivides.within c hc d (List.mem_cons_of_mem _ hd) o ho
  · obtain ⟨a, ha, hao⟩ := (h.possible o).2 fun d hd => ho d (List.mem_append_left _ hd)
    obtain ⟨part, hpart, hdivides⟩ := exists_of_forall₂ hparts a ha
    obtain ⟨c, hc, hco⟩ := (hdivides.possible o).2 <|
      List.forall_mem_cons.2 ⟨hao, fun d hd => ho d (List.mem_append_right _ hd)⟩
    exact ⟨c, List.mem_flatten.2 ⟨part, hpart, hc⟩, hco⟩
  · -- what lies within conditions that are apart is apart
    clear hof
    have hapart := h.apart
    clear h
    induction hparts with
    | nil => exact .nil
    | @cons a part as parts hdivides hrest ih =>
      obtain ⟨hhead, htail⟩ := List.pairwise_cons.1 hapart
      refine List.pairwise_append.2 ⟨hdivides.apart, ih htail, fun c hc c' hc' o ho ho' => ?_⟩
      obtain ⟨part', hpart', hc'⟩ := List.mem_flatten.1 hc'
      obtain ⟨a', ha', hdivides'⟩ := exists_of_forall₂ hrest.flip part' hpart'
      exact hhead a' ha' o (hdivides.within c hc a (.head _) o ho)
        (hdivides'.within c' hc' a' (.head _) o ho')

end Divides

end Schema

/-! ## Two conditions -/

namespace LookupM

variable {schema : Schema} {a b : Name} {as bs cs : List Name}

/-- Answers for the elements of a list that are as described. -/
theorem Answers.mapM_forall₂ {ε α β : Type} {f : α → LookupM schema ε β} {R : α → β → Prop} :
    ∀ {l : List α}, (∀ a ∈ l, ∃ b, Answers (f a) b ∧ R a b) →
      ∃ bs, Answers (l.mapM f) bs ∧ List.Forall₂ R l bs
  | [], _ => ⟨[], by rw [List.mapM_nil]; exact .pure _, .nil⟩
  | a :: l, h => by
    obtain ⟨b, hb, hR⟩ := h a (.head _)
    obtain ⟨bs, hbs, hRs⟩ := Answers.mapM_forall₂ fun a' ha' => h a' (List.mem_cons_of_mem _ ha')
    exact ⟨b :: bs, by rw [List.mapM_cons]; exact hb.bind (hbs.bind (.pure _)), .cons hR hRs⟩

/-- The intersection of two conditions divides the object types that satisfy both. -/
theorem intersect_divides (hs : schema.Coherent) (ha : schema.Composite a)
    (hb : schema.Composite b) :
    ∃ cs, Answers (intersect a b : LookupM schema LookupError _) cs ∧
      schema.Divides [a, b] cs := by
  obtain ⟨cs, hcs⟩ := intersect_answers ha hb
  have hmeet := intersect_gives hs ha hcs.gives
  refine ⟨cs, hcs, hmeet.composite, fun c hc => ?_, fun o => ?_, intersect_apart hs hcs.gives⟩
  · simpa using ⟨hmeet.left c hc, hmeet.right c hc⟩
  · simpa using hmeet.possible o

/-- Conditions that overlap in part only have the object types in common that they share, in the
order of the first one. -/
theorem intersect_shared (h : Gives (intersect a b : LookupM schema LookupError _) cs)
    (hab : ¬ schema.Within a b) (hba : ¬ schema.Within b a) :
    ∃ names, schema.possibleTypes a = .ok names ∧
      cs = names.toList.filter (schema.Possible b ·) := by
  unfold intersect at h
  obtain ⟨r, hr, h⟩ := h.of_bind
  rw [if_neg fun hw => hab ((within_gives hr).1 hw)] at h
  obtain ⟨r', hr', h⟩ := h.of_bind
  rw [if_neg fun hw => hba ((within_gives hr').1 hw)] at h
  obtain ⟨y, x, hy, hx, rfl⟩ := possibleTypeNames_pair h
  refine ⟨x, hx, List.filter_congr fun o _ => ?_⟩
  rw [Bool.eq_iff_iff, OrderedSet.contains_iff, decide_eq_true_iff, Schema.possible_iff hy]

/-! ## Any number of conditions -/

/-- Intersects a condition with each of some conditions. -/
def intersectEach (a : Name) (bs : List Name) : LookupM schema LookupError (List Name) := do
  return (← bs.mapM (intersect a)).flatten

/-- Intersects each of some conditions with each of some others. -/
def intersectAll (as bs : List Name) : LookupM schema LookupError (List Name) := do
  return (← as.mapM fun a => intersectEach a bs).flatten

/-- A condition is intersected with conditions that divide some object types. -/
theorem intersectEach_divides (hs : schema.Coherent) (ha : schema.Composite a)
    {conditions : List Name} (hbs : schema.Divides conditions bs) :
    ∃ cs, Answers (intersectEach a bs : LookupM schema LookupError _) cs ∧
      schema.Divides (a :: conditions) cs := by
  obtain ⟨parts, hanswers, hparts⟩ := Answers.mapM_forall₂
    (f := (intersect a : Name → LookupM schema LookupError _))
    (R := fun b part => schema.Divides [b, a] part) (l := bs) fun b hb => by
      obtain ⟨cs, hcs, hdivides⟩ := intersect_divides hs ha (hbs.composite b hb)
      exact ⟨cs, hcs, hdivides.congr (by simp [or_comm])⟩
  refine ⟨parts.flatten, hanswers.bind (.pure _), (hbs.flatten hparts).congr ?_⟩
  simp [or_comm]

/-- Conditions that divide some object types are intersected with conditions that divide others. -/
theorem intersectAll_divides (hs : schema.Coherent) {conditions conditions' : List Name}
    (has : schema.Divides conditions as) (hbs : schema.Divides conditions' bs) :
    ∃ cs, Answers (intersectAll as bs : LookupM schema LookupError _) cs ∧
      schema.Divides (conditions ++ conditions') cs := by
  obtain ⟨parts, hanswers, hparts⟩ := Answers.mapM_forall₂
    (f := fun a => (intersectEach a bs : LookupM schema LookupError _)) (l := as)
    fun a ha => intersectEach_divides hs (has.composite a ha) hbs
  exact ⟨parts.flatten, hanswers.bind (.pure _), has.flatten hparts⟩

end LookupM

/-- Conditions that are intersected two at a time. -/
inductive Combination where
  | condition (c : Name)
  | both (left right : Combination)

namespace Combination

variable {schema : Schema}

/-- The conditions, from left to right. -/
def conditions : Combination → List Name
  | condition c => [c]
  | both left right => left.conditions ++ right.conditions

/-- The conditions that the combination comes to. -/
def intersect : Combination → LookupM schema LookupError (List Name)
  | condition c => return [c]
  | both left right => do LookupM.intersectAll (← left.intersect) (← right.intersect)

/-- A combination divides the object types that satisfy all its conditions, whatever its order and
its grouping. -/
theorem intersect_divides (hs : schema.Coherent) {t : Combination}
    (h : ∀ c ∈ t.conditions, schema.Composite c) :
    ∃ cs, Answers (t.intersect : LookupM schema LookupError _) cs ∧
      schema.Divides t.conditions cs := by
  induction t with
  | condition c => exact ⟨[c], .pure _, .singleton (h c (.head _))⟩
  | both left right ihl ihr =>
    obtain ⟨as, has, hleft⟩ := ihl fun c hc => h c (List.mem_append_left _ hc)
    obtain ⟨bs, hbs, hright⟩ := ihr fun c hc => h c (List.mem_append_right _ hc)
    obtain ⟨cs, hcs, hdivides⟩ := LookupM.intersectAll_divides hs hleft hright
    exact ⟨cs, has.bind (hbs.bind hcs), hdivides⟩

end Combination

section

variable {schema : Schema} {a b : Name}

/-- The intersection of two composite types is always answered, by conditions without repetition that
are composite, lie within both types, are satisfied by exactly the object types that satisfy both,
and by none of these two at a time. It consists of the first type if that lies within the second one,
else of the second one if that lies within the first one, and else of the object types that they
share, in the order of the first one. The other way round it stands for the same object types, and
so does every way of intersecting the two with a third type, whatever the order and the grouping of
the three. -/
theorem Schema.Built.intersect_exact (hs : schema.Built) (ha : schema.Composite a)
    (hb : schema.Composite b) :
    ∃ cs, Answers (LookupM.intersect a b : LookupM schema LookupError _) cs ∧
      cs.Nodup ∧ schema.Meet a b cs ∧ cs.Pairwise schema.Apart ∧
      (schema.Within a b → cs = [a]) ∧
      (¬ schema.Within a b → schema.Within b a → cs = [b]) ∧
      (¬ schema.Within a b → ¬ schema.Within b a → ∃ names, schema.possibleTypes a = .ok names ∧
        cs = names.toList.filter (schema.Possible b ·)) ∧
      (∃ ds, Answers (LookupM.intersect b a : LookupM schema LookupError _) ds ∧
        ∀ o, (∃ d ∈ ds, schema.Possible d o) ↔ ∃ c ∈ cs, schema.Possible c o) ∧
      ∀ d, schema.Composite d → ∀ t : Combination, t.conditions.Perm [a, b, d] →
        ∃ es, Answers (t.intersect : LookupM schema LookupError _) es ∧
          es.Pairwise schema.Apart ∧
          ∀ o, (∃ e ∈ es, schema.Possible e o) ↔
            (∃ c ∈ cs, schema.Possible c o) ∧ schema.Possible d o := by
  obtain ⟨cs, hcs⟩ := LookupM.intersect_answers ha hb
  have hmeet := LookupM.intersect_gives hs.coherent ha hcs.gives
  have hcases := LookupM.intersect_cases hcs.gives
  refine ⟨cs, hcs, ?_, hmeet, LookupM.intersect_apart hs.coherent hcs.gives, fun hab => ?_,
    fun hab hba => ?_, LookupM.intersect_shared hcs.gives, ?_, fun d hd t hperm => ?_⟩
  · obtain ⟨-, rfl⟩ | ⟨-, -, rfl⟩ | ⟨-, -, hnodup, -⟩ := hcases
    · simp
    · simp
    · exact hnodup
  · obtain ⟨-, rfl⟩ | ⟨hnot, -⟩ | ⟨hnot, -⟩ := hcases
    · rfl
    · exact absurd hab hnot
    · exact absurd hab hnot
  · obtain ⟨hin, -⟩ | ⟨-, -, rfl⟩ | ⟨-, hnot, -⟩ := hcases
    · exact absurd hin hab
    · rfl
    · exact absurd hba hnot
  · obtain ⟨ds, hds, hdivides⟩ := LookupM.intersect_divides hs.coherent hb ha
    refine ⟨ds, hds, fun o => ?_⟩
    rw [hdivides.possible, hmeet.possible]
    simp [and_comm]
  · have hcomposite : ∀ c ∈ t.conditions, schema.Composite c := by
      intro c hc
      have hmem : c = a ∨ c = b ∨ c = d := by simpa using hperm.mem_iff.1 hc
      rcases hmem with rfl | rfl | rfl
      · exact ha
      · exact hb
      · exact hd
    obtain ⟨es, hes, hdivides⟩ := Combination.intersect_divides hs.coherent hcomposite
    refine ⟨es, hes, hdivides.apart, fun o => ?_⟩
    rw [(hdivides.congr fun c => hperm.mem_iff).possible, hmeet.possible]
    simp [and_assoc]

end

namespace Crossing

/-- The two interfaces have two object types in common, and with one of these as a third condition
only that one is left, whatever the order. -/
theorem shared_exact :
    schema.Built ∧ schema.Composite "North" ∧ schema.Composite "East" ∧
    Answers (LookupM.intersect "North" "East" : LookupM schema LookupError _) ["Left", "Right"] ∧
    ["Left", "Right"].Pairwise schema.Apart ∧
    ∃ es, Answers (Combination.intersect (.both (.condition "Left")
        (.both (.condition "East") (.condition "North"))) : LookupM schema LookupError _) es ∧
      ∀ o, (∃ e ∈ es, schema.Possible e o) ↔ o = "Left" := by
  have hnorth : schema.Composite "North" := by decide +kernel
  have heast : schema.Composite "East" := by decide +kernel
  have hleft : schema.Composite "Left" := by decide +kernel
  have hcross : ¬ schema.Within "North" "East" ∧ ¬ schema.Within "East" "North" := by
    decide +kernel
  have hpossible : schema.Possible "North" "Left" ∧ schema.Possible "East" "Left" ∧
      schema.Possible "Left" "Left" := by decide +kernel
  obtain ⟨cs, hcs, -, hmeet, hapart, -, -, hshared, -, hthird⟩ :=
    built.intersect_exact hnorth heast
  obtain ⟨names, hnames, rfl⟩ := hshared hcross.1 hcross.2
  have hlist : schema.possibleTypes "North" = .ok (.ofList ["Top", "Left", "Right"]) := by
    decide +kernel
  rw [hlist] at hnames
  cases hnames
  have heq : (OrderedSet.ofList ["Top", "Left", "Right"]).toList.filter
      (fun o => decide (schema.Possible "East" o)) = ["Left", "Right"] := by decide +kernel
  rw [heq] at hcs hapart hmeet hthird
  obtain ⟨es, hes, -, hcover⟩ := hthird "Left" hleft (.both (.condition "Left")
    (.both (.condition "East") (.condition "North"))) (by decide)
  refine ⟨built, hnorth, heast, hcs, hapart, es, hes, fun o => ?_⟩
  rw [hcover, hmeet.possible, (built.coherent.possible_self hpossible.1).2]
  constructor
  · exact fun h => h.2
  · rintro rfl
    exact ⟨⟨hpossible.1, hpossible.2.1⟩, rfl⟩

end Crossing

end EntityGraph
