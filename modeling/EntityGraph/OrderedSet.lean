/-!
# Ordered sets

A finite set that remembers the order in which its members arrived. Adding a member that is already
present changes nothing, removing one keeps the order of the others, and two sets are equal as soon
as they have the same members (`OrderedSet.beq_iff`), in whatever order. Type conditions, possible
types, merged fragments and the fragments under construction are all kept in such sets.
-/

namespace EntityGraph

/-- Distinct members in order of arrival. -/
structure OrderedSet (α : Type) where
  /-- The members, first arrival first. -/
  toList : List α
  nodup : toList.Nodup

namespace OrderedSet

variable {α : Type}

/-- Two ordered sets that list the same members in the same order are the same. -/
theorem ext {s t : OrderedSet α} (h : s.toList = t.toList) : s = t := by
  cases s; cases t; cases h; rfl

instance [DecidableEq α] : DecidableEq (OrderedSet α) := fun s t =>
  if h : s.toList = t.toList then .isTrue (ext h) else .isFalse fun e => h (e ▸ rfl)

/-- The set without members. -/
def empty : OrderedSet α := ⟨[], List.nodup_nil⟩

instance : EmptyCollection (OrderedSet α) := ⟨empty⟩

instance : Membership α (OrderedSet α) := ⟨fun s a => a ∈ s.toList⟩

/-- The set with one member. -/
def singleton (a : α) : OrderedSet α := ⟨[a], by simp⟩

/-- The number of members. -/
def size (s : OrderedSet α) : Nat := s.toList.length

/-- Whether the set has no member. -/
def isEmpty (s : OrderedSet α) : Bool := s.toList.isEmpty

@[simp] theorem toList_empty : (∅ : OrderedSet α).toList = [] := rfl

@[simp] theorem toList_singleton (a : α) : (singleton a).toList = [a] := rfl

@[simp] theorem mem_toList {s : OrderedSet α} {a : α} : a ∈ s.toList ↔ a ∈ s := Iff.rfl

/-- Keeps the members that satisfy `p`, in their order. -/
def filter (p : α → Bool) (s : OrderedSet α) : OrderedSet α :=
  ⟨s.toList.filter p, s.nodup.filter p⟩

@[simp] theorem toList_filter (p : α → Bool) (s : OrderedSet α) :
    (s.filter p).toList = s.toList.filter p := rfl

variable [DecidableEq α]

instance (a : α) (s : OrderedSet α) : Decidable (a ∈ s) :=
  inferInstanceAs (Decidable (a ∈ s.toList))

/-- Whether `a` is a member. -/
def contains (s : OrderedSet α) (a : α) : Bool := s.toList.contains a

@[simp] theorem contains_iff {s : OrderedSet α} {a : α} : s.contains a = true ↔ a ∈ s :=
  List.contains_iff_mem

/-- Adds `a` at the end unless it is already a member. -/
def insert (s : OrderedSet α) (a : α) : OrderedSet α :=
  if h : a ∈ s then s
  else ⟨s.toList ++ [a], by
    refine List.nodup_append.2 ⟨s.nodup, by simp, fun x hx y hy e => ?_⟩
    rw [List.mem_singleton.1 hy] at e
    exact h (e ▸ hx)⟩

theorem toList_insert (s : OrderedSet α) (a : α) :
    (s.insert a).toList = if a ∈ s then s.toList else s.toList ++ [a] := by
  by_cases h : a ∈ s
  · rw [insert, dif_pos h, if_pos h]
  · rw [insert, dif_neg h, if_neg h]

@[simp] theorem mem_insert {s : OrderedSet α} {a b : α} : b ∈ s.insert a ↔ b ∈ s ∨ b = a := by
  rw [← mem_toList, toList_insert]
  by_cases h : a ∈ s
  · simp only [h, if_true, mem_toList]
    exact ⟨.inl, fun hb => hb.elim id fun e => e ▸ h⟩
  · simp [h]

/-- Adds every element of `l`, first to last. -/
def insertAll (s : OrderedSet α) (l : List α) : OrderedSet α := l.foldl insert s

@[simp] theorem mem_insertAll {l : List α} {s : OrderedSet α} {b : α} :
    b ∈ s.insertAll l ↔ b ∈ s ∨ b ∈ l := by
  induction l generalizing s with
  | nil => simp [insertAll]
  | cons a l ih =>
    rw [insertAll, List.foldl_cons, ← insertAll, ih, mem_insert, List.mem_cons, or_assoc]

/-- The set of the elements of `l`, ordered by first occurrence. -/
def ofList (l : List α) : OrderedSet α := empty.insertAll l

@[simp] theorem mem_ofList {l : List α} {b : α} : b ∈ ofList l ↔ b ∈ l := by
  rw [ofList, mem_insertAll]
  exact ⟨fun h => h.resolve_left (by simp [empty, ← mem_toList]), .inr⟩

/-- New elements are added at the end, in the order in which they occur first. -/
theorem toList_insertAll_eq (s : OrderedSet α) (l : List α) :
    (s.insertAll l).toList = s.toList ++ (l.removeAll s.toList).eraseDups := by
  induction l generalizing s with
  | nil => simp [insertAll]
  | cons a l ih =>
    rw [insertAll, List.foldl_cons, ← insertAll, ih, toList_insert, List.cons_removeAll]
    by_cases h : a ∈ s
    · simp [h]
    · have hrest : l.removeAll (s.toList ++ [a]) =
          (l.removeAll s.toList).filter fun b => !b == a := by
        simp only [List.removeAll, List.filter_filter]
        refine List.filter_congr fun b _ => ?_
        by_cases hb : b = a <;> simp [hb]
      simp [h, hrest, List.eraseDups_cons]

/-- The set of a list has its elements in the order in which they occur first. -/
theorem toList_ofList_eq (l : List α) : (ofList l).toList = l.eraseDups := by
  rw [ofList, toList_insertAll_eq]
  exact congrArg List.eraseDups (List.filter_eq_self.2 fun _ _ => rfl)

/-- Removes `a`; the other members keep their order. -/
def erase (s : OrderedSet α) (a : α) : OrderedSet α := s.filter (· != a)

/-- A new member that is removed again leaves no trace. -/
theorem erase_insert {s : OrderedSet α} {a : α} (h : a ∉ s) : (s.insert a).erase a = s := by
  refine ext ?_
  have hs : s.toList.filter (· != a) = s.toList :=
    List.filter_eq_self.2 fun b hb => by simpa using fun e : b = a => h (e ▸ hb)
  simp [erase, toList_insert, h, hs]

@[simp] theorem mem_erase {s : OrderedSet α} {a b : α} : b ∈ s.erase a ↔ b ∈ s ∧ b ≠ a := by
  simp [erase, ← mem_toList]

/-- Whether every member of `s` is a member of `t`. -/
def isSubset (s t : OrderedSet α) : Bool := s.toList.all t.contains

@[simp] theorem isSubset_iff {s t : OrderedSet α} :
    s.isSubset t = true ↔ ∀ a, a ∈ s → a ∈ t := by
  simp [isSubset, List.all_eq_true]

/-- Equality of ordered sets looks at the members only, not at their order. -/
instance : BEq (OrderedSet α) := ⟨fun s t => s.isSubset t && t.isSubset s⟩

theorem beq_iff {s t : OrderedSet α} : (s == t) = true ↔ ∀ a, a ∈ s ↔ a ∈ t := by
  show (s.isSubset t && t.isSubset s) = true ↔ _
  rw [Bool.and_eq_true, isSubset_iff, isSubset_iff]
  exact ⟨fun h a => ⟨h.1 a, h.2 a⟩, fun h => ⟨fun a => (h a).1, fun a => (h a).2⟩⟩

end OrderedSet

end EntityGraph
