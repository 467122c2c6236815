import EntityGraph.Proofs.Questions.Steady
import Mathlib.Data.Set.Insert

/-!
# Conditions that stay

Which conditions of a field are left does not depend on the order in which they arrive. Of two
conditions one may prevail over the other (`Schema.Prevails`): it is satisfied by more object types,
or by the same ones and has the smaller name. This is a partial order, and what is left of a set of
conditions are its greatest elements (`Conditions.Leads`). Inserting a condition keeps that up
(`Conditions.insert_leads`), so a set of conditions is known as soon as it is known which conditions
were ever inserted.
-/

namespace EntityGraph

open LookupM (Answers)

section
variable {schema : Schema} {c : Name}

namespace Conditions

section
variable (schema : Schema)

/-- No other condition of the set prevails over `c`. -/
structure Leading (C : Set Name) (c : Name) : Prop where
  mem : c ∈ C
  eq_of_prevails : ∀ c' ∈ C, schema.Prevails c' c → c' = c

/-- The conditions are what is left of the set `C`: those over which no other one prevails, and some
of them prevails over each. -/
structure Leads (C : Set Name) (conditions : OrderedSet Name) : Prop where
  mem_iff : ∀ c, c ∈ conditions ↔ Leading schema C c
  cover : ∀ c ∈ C, ∃ e ∈ conditions, schema.Prevails e c

end

/-- Nothing is left of nothing. -/
theorem Leads.empty : Leads schema ∅ ∅ := by
  refine ⟨fun c => ⟨fun h => ?_, fun h => ?_⟩, fun c h => ?_⟩
  · cases h
  · exact h.mem.elim
  · exact h.elim

variable {C : Set Name} {before after : OrderedSet Name}

/-- A condition that one of those which are left prevails over changes nothing. -/
theorem Leads.insert_covered (h : Leads schema C before) {e : Name} (he : e ∈ before)
    (hp : schema.Prevails e c) : Leads schema (Insert.insert c C) before := by
  have hlead : Leading schema C e := (h.mem_iff e).1 he
  refine ⟨fun x => (h.mem_iff x).trans ⟨fun hx => ⟨.inr hx.mem, ?_⟩, fun hx => ⟨?_, ?_⟩⟩, ?_⟩
  · rintro c' (rfl | hc') hp'
    · have hex : e = x := hx.eq_of_prevails e hlead.mem (hp.trans hp')
      exact hp'.antisymm (hex ▸ hp)
    · exact hx.eq_of_prevails c' hc' hp'
  · rcases hx.mem with rfl | hmem
    · rw [← hx.eq_of_prevails e (.inr hlead.mem) hp]
      exact hlead.mem
    · exact hmem
  · exact fun c' hc' => hx.eq_of_prevails c' (.inr hc')
  · rintro c' (rfl | hc')
    · exact ⟨e, he, hp⟩
    · exact h.cover c' hc'

/-- A condition that none of those which are left prevails over stays, and takes the place of those
that lie within it. -/
theorem Leads.insert_new (h : Leads schema C before)
    (hnew : ∀ e ∈ before, ¬ schema.Prevails e c)
    (hafter : ∀ x, x ∈ after ↔ (x ∈ before ∧ ¬ schema.Within x c) ∨ x = c) :
    Leads schema (Insert.insert c C) after := by
  have hgone : ∀ e ∈ before, schema.Within e c → schema.Prevails c e :=
    fun e he hw => .of_within hw (hnew e he)
  have hnone : ∀ c' ∈ C, ¬ schema.Prevails c' c := by
    intro c' hc' hp
    obtain ⟨e, he, hpe⟩ := h.cover c' hc'
    exact hnew e he (hpe.trans hp)
  refine ⟨fun x => (hafter x).trans ⟨?_, fun hx => ?_⟩, ?_⟩
  · rintro (⟨hx, hout⟩ | rfl)
    · have hlead := (h.mem_iff x).1 hx
      refine ⟨.inr hlead.mem, ?_⟩
      rintro c' (rfl | hc') hp
      · exact absurd hp.1 hout
      · exact hlead.eq_of_prevails c' hc' hp
    · refine ⟨.inl rfl, ?_⟩
      rintro c' (rfl | hc') hp
      · rfl
      · exact absurd hp (hnone c' hc')
  · rcases hx.mem with rfl | hmem
    · exact .inr rfl
    · have hbefore : x ∈ before :=
        (h.mem_iff x).2 ⟨hmem, fun c' hc' => hx.eq_of_prevails c' (.inr hc')⟩
      by_cases hw : schema.Within x c
      · exact .inr (hx.eq_of_prevails c (.inl rfl) (hgone x hbefore hw)).symm
      · exact .inl ⟨hbefore, hw⟩
  · rintro c' (rfl | hc')
    · exact ⟨c', (hafter c').2 (.inr rfl), .refl c'⟩
    · obtain ⟨e, he, hp⟩ := h.cover c' hc'
      by_cases hw : schema.Within e c
      · exact ⟨c, (hafter c).2 (.inr rfl), (hgone e he hw).trans hp⟩
      · exact ⟨e, (hafter e).2 (.inl ⟨he, hw⟩), hp⟩

/-! ## Insertion -/

/-- On composite types it is always found out which conditions a new one supersedes. -/
theorem superseded?_answers (hc : schema.Composite c) {l : List Name}
    (hl : ∀ e ∈ l, schema.Composite e) :
    ∃ r, Answers (superseded? c l : LookupM schema LookupError _) r := by
  induction l with
  | nil => exact ⟨some [], .pure _⟩
  | cons e l ih =>
    have he := hl e (.head _)
    have hnew := LookupM.within_answers hc he (decide_eq_true_iff (p := schema.Within c e))
    have hold := LookupM.within_answers he hc (decide_eq_true_iff (p := schema.Within e c))
    obtain ⟨r, hr⟩ := ih fun x hx => hl x (List.mem_cons_of_mem _ hx)
    by_cases hp : (decide (schema.Within c e) &&
        !(decide (schema.Within e c) && decide (c < e))) = true
    · refine ⟨none, hnew.bind (hold.bind ?_)⟩
      rw [if_pos hp]
      exact .pure _
    · refine ⟨r.map fun names => if decide (schema.Within e c) then e :: names else names,
        hnew.bind (hold.bind ?_)⟩
      rw [if_neg hp]
      exact hr.bind (.pure _)

/-- On composite types a condition is always inserted. -/
theorem insert_answers (hc : schema.Composite c) (hbefore : ∀ e ∈ before, schema.Composite e) :
    ∃ after, Answers (insert before c : LookupM schema LookupError _) after := by
  obtain ⟨r, hr⟩ := superseded?_answers hc hbefore
  cases r with
  | none => exact ⟨before, hr.bind (.pure _)⟩
  | some gone => exact ⟨_, hr.bind (.pure _)⟩

/-- On composite types conditions are always inserted. -/
theorem insertAll_answers {new : List Name}
    (hnew : ∀ c ∈ new, schema.Composite c) (hbefore : ∀ c ∈ before, schema.Composite c) :
    ∃ after, Answers (insertAll before new : LookupM schema LookupError _) after := by
  induction new generalizing before with
  | nil => exact ⟨before, .pure _⟩
  | cons c new ih =>
    obtain ⟨mid, hmid⟩ := insert_answers (hnew c (.head _)) hbefore
    have hcomposite : ∀ x ∈ mid, schema.Composite x := by
      intro x hx
      rcases (insert_joins hmid.gives).subset x hx with hx | hx
      · exact hbefore x hx
      · exact List.mem_singleton.1 hx ▸ hnew c (.head _)
    obtain ⟨after, hafter⟩ := ih (fun x hx => hnew x (.tail _ hx)) hcomposite
    refine ⟨after, ?_⟩
    rw [insertAll, List.foldlM_cons]
    exact hmid.bind hafter

/-- Inserting a condition leaves what is left of the set with the condition. -/
theorem insert_leads (hc : schema.Composite c) (hC : ∀ x ∈ C, schema.Composite x)
    (h : Leads schema C before) :
    ∃ after, Answers (insert before c : LookupM schema LookupError _) after ∧
      Leads schema (Insert.insert c C) after := by
  obtain ⟨after, hafter⟩ := insert_answers hc fun e he => hC e ((h.mem_iff e).1 he).mem
  refine ⟨after, hafter, ?_⟩
  rcases insert_gives hafter.gives with ⟨rfl, e, he, hp⟩ | ⟨hnew, hmem⟩
  · exact h.insert_covered he hp
  · exact h.insert_new hnew hmem

/-- Inserting conditions leaves what is left of the set with the conditions. -/
theorem insertAll_leads {new : List Name} (hnew : ∀ x ∈ new, schema.Composite x)
    (hC : ∀ x ∈ C, schema.Composite x) (h : Leads schema C before) :
    ∃ after, Answers (insertAll before new : LookupM schema LookupError _) after ∧
      Leads schema (C ∪ {x | x ∈ new}) after := by
  induction new generalizing C before with
  | nil =>
    have hset : C ∪ {x | x ∈ ([] : List Name)} = C := by simp
    exact ⟨before, .pure _, by rwa [hset]⟩
  | cons c new ih =>
    have hc := hnew c (.head _)
    obtain ⟨mid, hmid, hlead⟩ := insert_leads hc hC h
    have hC' : ∀ x ∈ Insert.insert c C, schema.Composite x := by
      rintro x (rfl | hx)
      · exact hc
      · exact hC x hx
    obtain ⟨after, hafter, hleads⟩ := ih (fun x hx => hnew x (List.mem_cons_of_mem _ hx)) hC' hlead
    refine ⟨after, ?_, ?_⟩
    · rw [insertAll, List.foldlM_cons]
      exact hmid.bind hafter
    · have hset : C ∪ {x | x ∈ c :: new} = Insert.insert c C ∪ {x | x ∈ new} := by
        ext x
        simp only [Set.mem_union, Set.mem_ofPred_eq, List.mem_cons, Set.mem_insert_iff]
        tauto
      rwa [hset]

end Conditions

end

end EntityGraph
