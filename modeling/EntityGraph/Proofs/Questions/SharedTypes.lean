import EntityGraph.Proofs.Document.Dissolving

/-!
# Object types that two conditions share

Whether two type conditions share an object type (`Schema.Shares`) is asked in two ways: overlap
decides whether fields can conflict, and an intersection that is not empty whether a selection can
apply. Both take a short cut before they look at object types. Overlap takes equal names for
conditions that share something, and an intersection returns a condition that lies within the other
one. Each is right as long as the conditions have possible types. A vacant condition, such as an
interface that nothing implements, shares nothing with any condition, but it lies within all of
them, and overlaps itself. Main statement: `Schema.Built.overlap_intersect`, which says what each
question answers, and that the answers agree exactly if the names are equal or neither is vacant.
-/

namespace EntityGraph

open LookupM (Answers Gives)

section
variable {schema : Schema} {a b : Name} {cs : List Name}

namespace Schema

/-- Some object type is a possible type of both conditions. -/
def Shares (schema : Schema) (a b : Name) : Prop :=
  ∃ o t, schema.types.find? o = some (.object t) ∧ schema.Possible a o ∧ schema.Possible b o

/-- The condition has no possible types. -/
def Vacant (schema : Schema) (c : Name) : Prop := ∀ o, ¬ schema.Possible c o

/-- A condition that is not vacant has a possible type. -/
theorem not_vacant_iff {c : Name} : ¬ schema.Vacant c ↔ ∃ o, schema.Possible c o := by
  simp [Vacant]

/-- What satisfies both conditions is an object type that they share. -/
theorem Coherent.shares_iff (hs : schema.Coherent) :
    schema.Shares a b ↔ ∃ o, schema.Possible a o ∧ schema.Possible b o := by
  constructor
  · rintro ⟨o, -, -, ho⟩
    exact ⟨o, ho⟩
  · rintro ⟨o, ho⟩
    obtain ⟨t, ht⟩ := hs.object_of_possible ho.1
    exact ⟨o, t, ht, ho⟩

/-- A vacant condition lies within every condition. -/
theorem Vacant.within (h : schema.Vacant a) : schema.Within a b := fun o ho => absurd ho (h o)

/-- A vacant condition shares nothing with any condition. -/
theorem Vacant.not_shares (h : schema.Vacant a ∨ schema.Vacant b) : ¬ schema.Shares a b := by
  rintro ⟨o, -, -, ha, hb⟩
  exact h.elim (fun h => h o ha) fun h => h o hb

/-- A condition within another one shares its possible types with it, if it has any. -/
theorem Coherent.shares_of_within (hs : schema.Coherent) (h : schema.Within a b) :
    schema.Shares a b ∨ schema.Vacant a := by
  by_cases hv : schema.Vacant a
  · exact .inr hv
  · obtain ⟨o, ho⟩ := not_vacant_iff.1 hv
    exact .inl (hs.shares_iff.2 ⟨o, ho, h o ho⟩)

/-- Sharing does not depend on the order of the conditions. -/
theorem Shares.symm (h : schema.Shares a b) : schema.Shares b a :=
  have ⟨o, t, ht, ha, hb⟩ := h
  ⟨o, t, ht, hb, ha⟩

/-- Overlap is sharing, but for equal names. -/
theorem Coherent.overlap_shares_iff (hs : schema.Coherent) :
    schema.Overlap a b ↔ a = b ∨ schema.Shares a b := by
  rw [hs.shares_iff, Overlap]

/-- A condition is excluded exactly if nothing is shared and neither condition is vacant. -/
theorem Coherent.excludes_iff (hs : schema.Coherent) :
    schema.Excludes a b ↔ ¬ (schema.Shares a b ∨ schema.Vacant a ∨ schema.Vacant b) := by
  constructor
  · rintro hex (⟨o, -, -, ha, hb⟩ | hv | hv)
    · exact hex.apart o ha hb
    · exact hex.outer hv.within
    · exact hex.inner hv.within
  · intro hnone
    obtain ⟨hshares, hvacant⟩ := not_or.1 hnone
    obtain ⟨hva, hvb⟩ := not_or.1 hvacant
    refine ⟨fun o ha hb => hshares (hs.shares_iff.2 ⟨o, ha, hb⟩), fun hw => ?_, fun hw => ?_⟩
    · exact (hs.shares_of_within hw).elim hshares hva
    · exact (hs.shares_of_within hw).elim (fun h => hshares h.symm) hvb

/-- The questions whether two composite types overlap and what their intersection is are always
answered. They overlap if they are the same or share an object type. Their intersection is empty
unless they share an object type or one of them is vacant. So the two answers agree exactly if the
types are the same or neither of them is vacant, and where neither is vacant both say whether some
object type is a possible type of both. -/
theorem Built.overlap_intersect (hs : schema.Built) (ha : schema.Composite a)
    (hb : schema.Composite b) :
    ∃ r cs, Answers (LookupM.overlap a b : LookupM schema LookupError _) r ∧
      Answers (LookupM.intersect a b : LookupM schema LookupError _) cs ∧
      (r = true ↔ a = b ∨ schema.Shares a b) ∧
      (cs ≠ [] ↔ schema.Shares a b ∨ schema.Vacant a ∨ schema.Vacant b) ∧
      ((r = true ↔ cs ≠ []) ↔ a = b ∨ ¬ schema.Vacant a ∧ ¬ schema.Vacant b) ∧
      (¬ schema.Vacant a → ¬ schema.Vacant b →
        (r = true ↔ cs ≠ []) ∧ (r = true ↔ schema.Shares a b)) := by
  obtain ⟨cs, hcs⟩ := LookupM.intersect_answers ha hb
  obtain ⟨r, hr⟩ : ∃ r : Bool, r = true ↔ schema.Overlap a b := by
    classical exact ⟨_, decide_eq_true_iff⟩
  have hanswer := LookupM.overlap_answers ha hb hr
  rw [hs.coherent.overlap_shares_iff] at hr
  have hempty : cs ≠ [] ↔ schema.Shares a b ∨ schema.Vacant a ∨ schema.Vacant b := by
    rw [Ne, LookupM.intersect_eq_nil_iff hcs.gives, hs.coherent.excludes_iff, not_not]
  have hagree (hva : ¬ schema.Vacant a) (hvb : ¬ schema.Vacant b) :
      (r = true ↔ cs ≠ []) ∧ (r = true ↔ schema.Shares a b) := by
    -- equal types share their possible types, unless they are vacant
    have hself : a = b → schema.Shares a b := fun he =>
      (hs.coherent.shares_of_within (he ▸ .refl a)).resolve_right hva
    rw [or_iff_right_of_imp hself] at hr
    rw [or_iff_left (not_or.2 ⟨hva, hvb⟩)] at hempty
    exact ⟨hr.trans hempty.symm, hr⟩
  refine ⟨r, cs, hanswer, hcs, hr, hempty, ?_, hagree⟩
  by_cases hv : schema.Vacant a ∨ schema.Vacant b
  · -- nothing is shared, so the types overlap only if they are the same
    rw [or_iff_left (Vacant.not_shares hv)] at hr
    have hne : cs ≠ [] := hempty.2 (.inr hv)
    rw [iff_true_right hne, hr, ← not_or, or_iff_left (not_not.2 hv)]
  · obtain ⟨hva, hvb⟩ := not_or.1 hv
    exact iff_of_true (hagree hva hvb).1 (.inr ⟨hva, hvb⟩)

end Schema

end

/-! ## An interface that nothing implements -/

namespace Ghosts

open Grammar (Definition)

/-- An interface that nothing implements and a union without members, beside an object type. -/
def definitions : List Definition := [
  Sample.type "Ghost" (.interface [] [Sample.field "id" (.named "ID")]),
  Sample.type "Void" (.union []),
  Sample.type "Query" (.object [] [Sample.field "ghost" (.named "Ghost")])]

/-- The definitions make up a schema. -/
theorem build?_isSome : (Sample.build? definitions).isSome = true := by decide +kernel

/-- The schema. -/
def schema : Schema := (Sample.build? definitions).get build?_isSome

/-- The schema is one that was built. -/
theorem built : schema.Built := Sample.built_of_build? (Option.some_get build?_isSome).symm

/-- Nothing implements the interface. -/
theorem ghost_vacant : schema.Vacant "Ghost" := by
  have hnone : schema.possibleTypes "Ghost" = .ok ∅ := by decide +kernel
  intro o ho
  rw [Schema.possible_iff hnone] at ho
  cases ho

/-- The interface and the object type do not overlap, but their intersection is not empty. -/
theorem ghost_not_excluded :
    schema.Built ∧ schema.Composite "Ghost" ∧ schema.Composite "Query" ∧
    ¬ schema.Shares "Ghost" "Query" ∧
    Answers (LookupM.overlap "Ghost" "Query" : LookupM schema LookupError _) false ∧
    Answers (LookupM.intersect "Ghost" "Query" : LookupM schema LookupError _) ["Ghost"] := by
  have hghost : schema.Composite "Ghost" := by decide +kernel
  have hquery : schema.Composite "Query" := by decide +kernel
  have hnot : ¬ schema.Shares "Ghost" "Query" := Schema.Vacant.not_shares (.inl ghost_vacant)
  obtain ⟨r, cs, hr, hcs, hoverlap, -⟩ := built.overlap_intersect hghost hquery
  have hfalse : r = false := by
    rw [← Bool.not_eq_true, hoverlap]
    simpa using hnot
  have hghosts : cs = ["Ghost"] := by
    rcases LookupM.intersect_cases hcs.gives with ⟨-, hlist⟩ | ⟨hwithin, -⟩ | ⟨hwithin, -⟩
    · exact hlist
    · exact absurd ghost_vacant.within hwithin
    · exact absurd ghost_vacant.within hwithin
  exact ⟨built, hghost, hquery, hnot, hfalse ▸ hr, hghosts ▸ hcs⟩

end Ghosts

end EntityGraph
