import EntityGraph.Proofs.Entity.Leading
import EntityGraph.Proofs.Request.Requests

/-!
# The set that inserted conditions come to

Conditions that are inserted one after the other come to one set, whatever their order and however
often each is inserted. Conditions with the same possible types form a class, and only the classes
are ordered by containment: two names of one class lie within each other. What is left of each
greatest class is its smallest name that was inserted (`Conditions.Remains`), and these are the
conditions over which no other one prevails (`Conditions.leading_iff`). Main statement:
`Conditions.insertAll_canonical`.
-/

namespace EntityGraph

open LookupM (Answers)

section
variable {schema : Schema} {names : List Name} {c : Name}

namespace Conditions

section
variable (schema : Schema)

/-- The condition is the smallest name of its class among `names`, and no name of another class has
all its possible types. -/
structure Remains (names : List Name) (c : Name) : Prop where
  mem : c ∈ names
  greatest : ∀ n ∈ names, schema.Within c n → schema.Within n c
  smallest : ∀ n ∈ names, schema.Within c n → schema.Within n c → c ≤ n

end

instance : Decidable (Remains schema names c) :=
  decidable_of_iff (c ∈ names ∧ (∀ n ∈ names, schema.Within c n → schema.Within n c) ∧
      ∀ n ∈ names, schema.Within c n → schema.Within n c → c ≤ n)
    ⟨fun h => ⟨h.1, h.2.1, h.2.2⟩, fun h => ⟨h.mem, h.greatest, h.smallest⟩⟩

/-- No other name prevails over a name exactly if it remains. -/
theorem leading_iff : Leading schema {n | n ∈ names} c ↔ Remains schema names c := by
  constructor
  · intro h
    have hgreatest : ∀ n ∈ names, schema.Within c n → schema.Within n c := by
      intro n hn hcn
      by_contra hnc
      have hprevails : schema.Prevails n c := ⟨hcn, fun hback => absurd hback hnc⟩
      have heq : n = c := h.eq_of_prevails n hn hprevails
      exact hnc (heq ▸ .refl n)
    refine ⟨h.mem, hgreatest, fun n hn hcn hnc => ?_⟩
    rcases le_total c n with hle | hle
    · exact hle
    · exact (h.eq_of_prevails n hn ⟨hcn, fun _ => hle⟩).ge
  · intro h
    refine ⟨h.mem, fun n hn hprevails => ?_⟩
    have hnc : schema.Within n c := h.greatest n hn hprevails.1
    exact le_antisymm (hprevails.2 hnc) (h.smallest n hn hprevails.1 hnc)

/-- Inserting names of composite types leaves those that remain of them, and every name lies within one
of these. -/
theorem insertAll_remains (h : ∀ n ∈ names, schema.Composite n) :
    ∃ left, Answers (insertAll ∅ names : LookupM schema LookupError _) left ∧
      (∀ c, c ∈ left ↔ Remains schema names c) ∧
      ∀ n ∈ names, ∃ c ∈ left, schema.Within n c := by
  obtain ⟨left, hleft, hleads⟩ := insertAll_leads h (fun _ hx => hx.elim) Leads.empty
  rw [Set.empty_union] at hleads
  refine ⟨left, hleft, fun c => (hleads.mem_iff c).trans leading_iff, fun n hn => ?_⟩
  obtain ⟨c, hc, hprevails⟩ := hleads.cover n hn
  exact ⟨c, hc, hprevails.1⟩

/-- Names of composite types can always be inserted into the empty set, one after the other. What is
left of each greatest class is the smallest name. So none of those that are left lies within another
one, every inserted name lies within one of them, they cover the possible types of the inserted
names, and another list of the same names comes to an equal set. -/
theorem insertAll_canonical (h : ∀ n ∈ names, schema.Composite n) :
    ∃ left, Answers (insertAll ∅ names : LookupM schema LookupError _) left ∧
      (∀ c, c ∈ left ↔ Remains schema names c) ∧
      (∀ a ∈ left, ∀ b ∈ left, schema.Within a b → a = b) ∧
      (∀ n ∈ names, ∃ c ∈ left, schema.Within n c) ∧
      (∀ o, (∃ c ∈ left, schema.Possible c o) ↔ ∃ n ∈ names, schema.Possible n o) ∧
      ∀ names', (∀ n, n ∈ names' ↔ n ∈ names) →
        ∃ left', Answers (insertAll ∅ names' : LookupM schema LookupError _) left' ∧
          (left' == left) = true := by
  obtain ⟨left, hleft, hmem, hwithin⟩ := insertAll_remains h
  refine ⟨left, hleft, hmem, fun a ha b hb hab => ?_, hwithin, fun o => ⟨?_, ?_⟩, ?_⟩
  · have hsa := (hmem a).1 ha
    have hsb := (hmem b).1 hb
    have hba : schema.Within b a := hsa.greatest b hsb.mem hab
    exact le_antisymm (hsa.smallest b hsb.mem hab hba) (hsb.smallest a hsa.mem hba hab)
  · rintro ⟨c, hc, ho⟩
    exact ⟨c, ((hmem c).1 hc).mem, ho⟩
  · rintro ⟨n, hn, ho⟩
    obtain ⟨c, hc, hnc⟩ := hwithin n hn
    exact ⟨c, hc, hnc o ho⟩
  · intro names' hsame
    have hcomposite : ∀ n ∈ names', schema.Composite n := fun n hn => h n ((hsame n).1 hn)
    obtain ⟨left', hleft', hmem', -⟩ := insertAll_remains hcomposite
    have hremains : ∀ c, Remains schema names' c ↔ Remains schema names c := fun c => by
      simp only [← leading_iff, hsame]
    exact ⟨left', hleft', OrderedSet.beq_iff.2 fun c => by rw [hmem', hmem, hremains]⟩

end Conditions

end

/-! ## Classes of one sample -/

namespace Classes

open Grammar (Definition)

/-- An interface, a union and an object type with the same possible types, an object type beside them,
and an interface that nothing implements. -/
def definitions : List Definition := [
  Sample.type "Node" (.interface [] [Sample.field "id" (.named "ID")]),
  Sample.type "Ghost" (.interface [] [Sample.field "id" (.named "ID")]),
  Sample.type "Leaf" (.object ["Node"] [Sample.field "id" (.named "ID")]),
  Sample.type "Only" (.union ["Leaf"]),
  Sample.type "Twig" (.object [] [Sample.field "id" (.named "ID")]),
  Sample.type "Query" (.object [] [Sample.field "node" (.named "Node")])]

/-- The definitions make up a schema. -/
theorem build?_isSome : (Sample.build? definitions).isSome = true := by decide +kernel

/-- The schema. -/
def schema : Schema := (Sample.build? definitions).get build?_isSome

/-- The schema is one that was built. -/
theorem built : schema.Built := Sample.built_of_build? (Option.some_get build?_isSome).symm

/-- The names that are inserted, one of them twice. -/
def names : List Name := ["Ghost", "Node", "Only", "Twig", "Leaf", "Node"]

/-- Two classes are greatest, and of each the smallest name is left. -/
theorem greatest_left : schema.Built ∧ (∀ n ∈ names, schema.Composite n) ∧
    ∃ left, Answers (Conditions.insertAll ∅ names : LookupM schema LookupError _) left ∧
      ∀ c, c ∈ left ↔ c = "Leaf" ∨ c = "Twig" := by
  have hcomposite : ∀ n ∈ names, schema.Composite n := by decide +kernel
  obtain ⟨left, hleft, hmem, -⟩ := Conditions.insertAll_canonical hcomposite
  have hremains : ∀ n ∈ names, Conditions.Remains schema names n ↔ n = "Leaf" ∨ n = "Twig" := by
    decide +kernel
  refine ⟨built, hcomposite, left, hleft, fun c => (hmem c).trans ⟨fun h => ?_, fun h => ?_⟩⟩
  · exact (hremains c h.mem).1 h
  · have hc : c ∈ names := by rcases h with rfl | rfl <;> decide
    exact (hremains c hc).2 h

end Classes

end EntityGraph
