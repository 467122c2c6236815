/-!
# Insertion-ordered dictionaries

A dictionary lists its entries in the order in which their keys first arrived. Giving a present key
a new value keeps the key's place (`Dict.keys_insert`), and comparing two dictionaries ignores the
order of the entries. Type definitions, fields, arguments, entities and fragment definitions are
kept in dictionaries, because their order is part of every answer about them.
-/

namespace EntityGraph

/-- Entries with distinct keys, in order of first insertion. -/
structure Dict (κ ν : Type) where
  /-- Keys with their values, first inserted key first. -/
  entries : List (κ × ν)
  nodup : (entries.map Prod.fst).Nodup

namespace Dict

variable {κ ν : Type}

/-- Two dictionaries with the same entries in the same order are the same. -/
theorem ext {d e : Dict κ ν} (h : d.entries = e.entries) : d = e := by
  cases d; cases e; cases h; rfl

/-- The dictionary without entries. -/
def empty : Dict κ ν := ⟨[], .nil⟩

instance : EmptyCollection (Dict κ ν) := ⟨empty⟩

/-- The keys, in order of first insertion. -/
def keys (d : Dict κ ν) : List κ := d.entries.map Prod.fst

/-- The values, in the order of their keys. -/
def values (d : Dict κ ν) : List ν := d.entries.map Prod.snd

/-- The number of entries. -/
def size (d : Dict κ ν) : Nat := d.entries.length

/-- Whether there is no entry. -/
def isEmpty (d : Dict κ ν) : Bool := d.entries.isEmpty

@[simp] theorem entries_empty : (∅ : Dict κ ν).entries = [] := rfl

@[simp] theorem keys_empty : (∅ : Dict κ ν).keys = [] := rfl

theorem nodup_keys (d : Dict κ ν) : d.keys.Nodup := d.nodup

/-- There are as many keys as entries. -/
theorem length_keys (d : Dict κ ν) : d.keys.length = d.size := List.length_map ..

theorem mem_keys_of_mem {d : Dict κ ν} {k : κ} {v : ν} (h : (k, v) ∈ d.entries) : k ∈ d.keys :=
  List.mem_map.2 ⟨_, h, rfl⟩

variable [DecidableEq κ]

/-- The value stored under `k`. -/
def find? (d : Dict κ ν) (k : κ) : Option ν := d.entries.lookup k

/-- Whether `k` is a key. -/
def contains (d : Dict κ ν) (k : κ) : Bool := (d.find? k).isSome

@[simp] theorem find?_empty (k : κ) : (∅ : Dict κ ν).find? k = none := rfl

private theorem lookup_eq_none_iff_keys {k : κ} {l : List (κ × ν)} :
    l.lookup k = none ↔ k ∉ l.map Prod.fst := by
  induction l with
  | nil => simp
  | cons e l ih =>
    obtain ⟨k', v⟩ := e
    by_cases h : k = k'
    · simp [h]
    · simp [List.lookup_cons, h, ih, beq_false_of_ne h]

theorem find?_eq_none_iff {d : Dict κ ν} {k : κ} : d.find? k = none ↔ k ∉ d.keys :=
  lookup_eq_none_iff_keys

@[simp] theorem contains_iff {d : Dict κ ν} {k : κ} : d.contains k = true ↔ k ∈ d.keys := by
  by_cases h : k ∈ d.keys
  · have : d.find? k ≠ none := fun e => find?_eq_none_iff.1 e h
    simp [contains, h, Option.isSome_iff_ne_none, this]
  · simp [contains, h, find?_eq_none_iff.2 h]

/-- Stores `v` under the key `k` of one entry list: in place if `k` is there, at the end if not. -/
def put (k : κ) (v : ν) : List (κ × ν) → List (κ × ν)
  | [] => [(k, v)]
  | (k', v') :: rest => if k = k' then (k, v) :: rest else (k', v') :: put k v rest

theorem map_fst_put (k : κ) (v : ν) (l : List (κ × ν)) :
    (put k v l).map Prod.fst =
      if k ∈ l.map Prod.fst then l.map Prod.fst else l.map Prod.fst ++ [k] := by
  induction l with
  | nil => simp [put]
  | cons e l ih =>
    obtain ⟨k', v'⟩ := e
    by_cases h : k = k'
    · simp [put, h]
    · rw [put, if_neg h, List.map_cons, ih, List.map_cons]
      by_cases hm : k ∈ l.map Prod.fst
      · rw [if_pos hm, if_pos (List.mem_cons_of_mem _ hm)]
      · rw [if_neg hm, if_neg (by simpa [h] using hm), List.cons_append]

/-- Stores `v` under `k`: a present key keeps its place, a new one goes to the end. -/
def insert (d : Dict κ ν) (k : κ) (v : ν) : Dict κ ν :=
  ⟨put k v d.entries, by
    rw [map_fst_put]
    split
    · exact d.nodup
    · rename_i h
      refine List.nodup_append.2 ⟨d.nodup, by simp, fun x hx y hy e => ?_⟩
      rw [List.mem_singleton.1 hy] at e
      exact h (e ▸ hx)⟩

/-- Inserting never moves a key that is already there. -/
theorem keys_insert (d : Dict κ ν) (k : κ) (v : ν) :
    (d.insert k v).keys = if k ∈ d.keys then d.keys else d.keys ++ [k] :=
  map_fst_put k v d.entries

/-- A new key makes the dictionary one entry larger. -/
theorem size_insert {d : Dict κ ν} {k : κ} (v : ν) (h : k ∉ d.keys) :
    (d.insert k v).size = d.size + 1 := by
  rw [← length_keys, keys_insert, if_neg h, List.length_append, length_keys]
  rfl

private theorem lookup_put (k k' : κ) (v : ν) (l : List (κ × ν)) :
    (put k v l).lookup k' = if k' = k then some v else l.lookup k' := by
  induction l with
  | nil =>
    by_cases h : k' = k
    · simp [put, h]
    · simp [put, List.lookup_cons, h, beq_false_of_ne h]
  | cons e l ih =>
    obtain ⟨k₁, v₁⟩ := e
    by_cases h : k = k₁
    · subst h
      by_cases h' : k' = k
      · simp [put, h']
      · simp [put, List.lookup_cons, h', beq_false_of_ne h']
    · by_cases h₁ : k' = k₁
      · subst h₁
        simp [put, h, Ne.symm h]
      · simp [put, h, List.lookup_cons, beq_false_of_ne h₁, ih]

/-- A look-up after an insertion sees the new value under the new key and the old ones elsewhere. -/
theorem find?_insert (d : Dict κ ν) (k k' : κ) (v : ν) :
    (d.insert k v).find? k' = if k' = k then some v else d.find? k' :=
  lookup_put k k' v d.entries

@[simp] theorem find?_insert_self (d : Dict κ ν) (k : κ) (v : ν) :
    (d.insert k v).find? k = some v := by simp [find?_insert]

private theorem put_put (k : κ) (v v' : ν) (l : List (κ × ν)) :
    put k v' (put k v l) = put k v' l := by
  induction l with
  | nil => simp [put]
  | cons e l ih =>
    obtain ⟨k₁, v₁⟩ := e
    by_cases h : k = k₁
    · simp [put, h]
    · simp [put, h, ih]

/-- Of two values for one key the second one stays. -/
@[simp] theorem insert_insert (d : Dict κ ν) (k : κ) (v v' : ν) :
    (d.insert k v).insert k v' = d.insert k v' :=
  ext (put_put k v v' d.entries)

private theorem put_of_lookup {k : κ} {v : ν} {l : List (κ × ν)} (h : l.lookup k = some v) :
    put k v l = l := by
  induction l with
  | nil => cases h
  | cons e l ih =>
    obtain ⟨k₁, v₁⟩ := e
    by_cases hk : k = k₁
    · subst hk
      simp_all [put]
    · simp only [List.lookup_cons, beq_false_of_ne hk] at h
      rw [put, if_neg hk, ih h]

/-- Storing a value where it is already stored changes nothing. -/
theorem insert_of_find? {d : Dict κ ν} {k : κ} {v : ν} (h : d.find? k = some v) :
    d.insert k v = d :=
  ext (put_of_lookup h)

/-- Inserts every entry of `l`, first to last, so the last value given to a key stays. -/
def insertAll (d : Dict κ ν) (l : List (κ × ν)) : Dict κ ν :=
  l.foldl (fun d e => d.insert e.1 e.2) d

/-- The dictionary of the entries of `l`: keys by first occurrence, values by last. -/
def ofList (l : List (κ × ν)) : Dict κ ν := empty.insertAll l

/-- The dictionary that stores every value under its own name. -/
def ofValues (key : ν → κ) (l : List ν) : Dict κ ν := ofList (l.map fun v => (key v, v))

private theorem lookup_of_mem {l : List (κ × ν)} (hl : (l.map Prod.fst).Nodup) {k : κ} {v : ν}
    (h : (k, v) ∈ l) : l.lookup k = some v := by
  induction l with
  | nil => cases h
  | cons e l ih =>
    obtain ⟨k', v'⟩ := e
    rw [List.map_cons, List.nodup_cons] at hl
    rcases List.mem_cons.1 h with heq | hm
    · cases heq; simp
    · have : k ≠ k' := fun e => hl.1 (e ▸ List.mem_map.2 ⟨_, hm, rfl⟩)
      simp [List.lookup_cons, beq_false_of_ne this, ih hl.2 hm]

private theorem mem_of_lookup {l : List (κ × ν)} {k : κ} {v : ν}
    (h : l.lookup k = some v) : (k, v) ∈ l := by
  induction l with
  | nil => cases h
  | cons e l ih =>
    obtain ⟨k', v'⟩ := e
    by_cases hk : k = k'
    · subst hk; simp_all
    · simp only [List.lookup_cons, beq_false_of_ne hk] at h
      exact List.mem_cons_of_mem _ (ih h)

/-- Looking a key up and reading its entry off the list are the same thing. -/
theorem find?_eq_some_iff {d : Dict κ ν} {k : κ} {v : ν} :
    d.find? k = some v ↔ (k, v) ∈ d.entries :=
  ⟨mem_of_lookup, lookup_of_mem d.nodup⟩

/-- A key has a value. -/
theorem mem_keys_iff {d : Dict κ ν} {k : κ} : k ∈ d.keys ↔ ∃ v, d.find? k = some v := by
  rw [← contains_iff, contains, Option.isSome_iff_exists]

/-- A value has a key. -/
theorem mem_values_iff {d : Dict κ ν} {v : ν} : v ∈ d.values ↔ ∃ k, d.find? k = some v := by
  simp [values, find?_eq_some_iff]

/-- Dictionaries are equal when they have the same keys with equal values, in whatever order. -/
instance [BEq ν] : BEq (Dict κ ν) :=
  ⟨fun d e => d.entries.all (fun (k, v) => e.find? k == some v) && e.keys.all d.contains⟩

end Dict

end EntityGraph
