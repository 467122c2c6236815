import EntityGraph.Proofs.Questions.Histories
import Mathlib.Data.Option.Basic

/-!
# When schemas that were asked are equal

Two schemas are in the same state if they are equal and the same entries of their memos are filled
(`Memo.sameState`). What the entries say need not be compared: equal schemas let a type stand for
the same object types (`Schema.possible_of_beq`), although perhaps in another order. So questions
do show in whether schemas are in the same state, but only through the names that they look up:
schemas in the same state are so after any two histories exactly if the histories look up the same
composite types, entries that were filled before apart (`Memo.sameState_asked_iff`).
-/

namespace EntityGraph

/-! ## What equality of types says -/

/-- Equal dictionaries have equal values under the same keys. -/
theorem Dict.rel_of_beq {κ ν : Type} [DecidableEq κ] [BEq ν] {d e : Dict κ ν}
    (h : (d == e) = true) (k : κ) :
    Option.Rel (fun v v' => (v' == v) = true) (d.find? k) (e.find? k) := by
  obtain ⟨hentries, hkeys⟩ := Bool.and_eq_true_iff.1 h
  rw [List.all_eq_true] at hentries hkeys
  cases hd : d.find? k with
  | some v =>
    have he := hentries (k, v) (find?_eq_some_iff.1 hd)
    dsimp only at he
    cases he' : e.find? k with
    | some v' =>
      rw [he', Option.some_beq_some] at he
      exact .some he
    | none =>
      rw [he'] at he
      cases he
  | none =>
    have hnone : k ∉ e.keys := fun hk =>
      find?_eq_none_iff.1 hd (contains_iff.1 (hkeys k hk))
    rw [find?_eq_none_iff.2 hnone]
    exact .none

/-- Equal dictionaries have the same keys. -/
theorem Dict.mem_keys_of_beq {κ ν : Type} [DecidableEq κ] [BEq ν] {d e : Dict κ ν}
    (h : (d == e) = true) (k : κ) : k ∈ d.keys ↔ k ∈ e.keys := by
  rw [mem_keys_iff, mem_keys_iff]
  have hrel := rel_of_beq h k
  generalize d.find? k = x, e.find? k = y at hrel ⊢
  cases hrel <;> simp

/-- Lists of equal references name the same. -/
theorem map_name_of_beq : ∀ {refs refs' : List TypeRef}, (refs == refs') = true →
    refs.map (·.name) = refs'.map (·.name)
  | [], [], _ => rfl
  | ref :: refs, ref' :: refs', h => by
    obtain ⟨href, hrefs⟩ := Bool.and_eq_true_iff.1 h
    have hname : ref.name = ref'.name := of_decide_eq_true (Bool.and_eq_true_iff.1 href).1
    rw [List.map_cons, List.map_cons, hname, map_name_of_beq hrefs]

/-- Equal objects or interfaces have the same name, and name the same interfaces. -/
theorem FieldedType.of_beq {t t' : FieldedType} (h : (t == t') = true) :
    t.name = t'.name ∧ t.interfaceNames = t'.interfaceNames := by
  obtain ⟨-, h⟩ := Bool.and_eq_true_iff.1 h
  obtain ⟨-, h⟩ := Bool.and_eq_true_iff.1 h
  obtain ⟨-, h⟩ := Bool.and_eq_true_iff.1 h
  obtain ⟨hinterfaces, hname⟩ := Bool.and_eq_true_iff.1 h
  exact ⟨of_decide_eq_true hname, map_name_of_beq hinterfaces⟩

/-- Equal unions have the same members. -/
theorem UnionType.of_beq {t t' : UnionType} (h : (t == t') = true) (m : Name) :
    m ∈ t.memberNames ↔ m ∈ t'.memberNames := by
  obtain ⟨-, h⟩ := Bool.and_eq_true_iff.1 h
  obtain ⟨-, h⟩ := Bool.and_eq_true_iff.1 h
  obtain ⟨-, hmembers⟩ := Bool.and_eq_true_iff.1 h
  exact Dict.mem_keys_of_beq hmembers m

/-! ## What possible types depend on -/

/-- Two types are the same as far as possible types go. -/
inductive NamedType.Resembles : NamedType → NamedType → Prop
  | object {t t' : FieldedType} : t.name = t'.name → t.interfaceNames = t'.interfaceNames →
      Resembles (.object t) (.object t')
  | interface {t t' : FieldedType} : t.name = t'.name → Resembles (.interface t) (.interface t')
  | union {t t' : UnionType} : (∀ m, m ∈ t.memberNames ↔ m ∈ t'.memberNames) →
      Resembles (.union t) (.union t')
  | other {t t' : NamedType} : t.isComposite = false → t'.isComposite = false → Resembles t t'

namespace NamedType.Resembles

variable {t t' : NamedType}

theorem symm (h : t.Resembles t') : t'.Resembles t := by
  cases h with
  | object hname hinterfaces => exact .object hname.symm hinterfaces.symm
  | interface hname => exact .interface hname.symm
  | union hmembers => exact .union fun m => (hmembers m).symm
  | other ht ht' => exact .other ht' ht

/-- Equal types resemble each other. -/
theorem of_beq (h : (t == t') = true) : t.Resembles t' := by
  -- types of different kinds are not equal
  cases t <;> cases t' <;> try cases h
  case object.object o o' =>
    have heq : (o == o') = true := h
    exact .object (FieldedType.of_beq heq).1 (FieldedType.of_beq heq).2
  case interface.interface o o' =>
    have heq : (o == o') = true := h
    exact .interface (FieldedType.of_beq heq).1
  case union.union u u' =>
    have heq : (u == u') = true := h
    exact .union (UnionType.of_beq heq)
  all_goals exact .other rfl rfl

end NamedType.Resembles

namespace Schema

variable {a b : Schema} {name o : Name}

/-- Two schemas are the same as far as possible types go. -/
def Resembles (a b : Schema) : Prop :=
  ∀ name, Option.Rel NamedType.Resembles (a.types.find? name) (b.types.find? name)

theorem Resembles.symm (h : a.Resembles b) : b.Resembles a := by
  intro name
  have hrel := h name
  generalize a.types.find? name = x, b.types.find? name = y at hrel ⊢
  cases hrel with
  | some ht => exact .some ht.symm
  | none => exact .none

/-- Equal schemas resemble each other. -/
theorem Resembles.of_beq (h : (a == b) = true) : a.Resembles b := by
  obtain ⟨-, h⟩ := Bool.and_eq_true_iff.1 h
  obtain ⟨-, h⟩ := Bool.and_eq_true_iff.1 h
  obtain ⟨-, htypes⟩ := Bool.and_eq_true_iff.1 h
  intro name
  have hrel := Dict.rel_of_beq htypes name
  generalize a.types.find? name = x, b.types.find? name = y at hrel ⊢
  cases hrel with
  | some heq => exact .some (NamedType.Resembles.of_beq heq).symm
  | none => exact .none

/-- A type has one that it resembles in every schema that resembles its own. -/
theorem Resembles.find? (h : a.Resembles b) {t : NamedType}
    (hfind : a.types.find? name = some t) :
    ∃ t', b.types.find? name = some t' ∧ t.Resembles t' := by
  have hrel := h name
  rw [hfind] at hrel
  generalize b.types.find? name = y at hrel ⊢
  cases hrel with
  | some hr => exact ⟨_, rfl, hr⟩

/-- What an object of a schema implements, an object of the same name implements in another one that
resembles it. -/
theorem Resembles.implements (h : a.Resembles b) {interface : Name}
    (ho : ∃ object ∈ a.objects, object.implements interface = true ∧ object.name = o) :
    ∃ object ∈ b.objects, object.implements interface = true ∧ object.name = o := by
  obtain ⟨object, hm, himplements, hname⟩ := ho
  obtain ⟨t, ht, hobject⟩ := List.mem_filterMap.1 hm
  obtain ⟨key, hfind⟩ := Dict.mem_values_iff.1 ht
  obtain ⟨t', hfind', hr⟩ := h.find? hfind
  cases hr with
  | @object _ object' hsame hinterfaces =>
    cases hobject
    refine ⟨object', List.mem_filterMap.2 ⟨_, Dict.mem_values_iff.2 ⟨key, hfind'⟩, rfl⟩, ?_,
      hsame ▸ hname⟩
    rw [FieldedType.implements, ← hinterfaces]
    exact himplements
  | interface | union => cases hobject
  | other ht =>
    cases t with
    | object => cases ht
    | enum | inputObject | interface | scalar | union => cases hobject

/-- What satisfies a condition in a schema satisfies it in one that resembles it. -/
theorem Resembles.possible (h : a.Resembles b) (ho : a.Possible name o) : b.Possible name o := by
  obtain ⟨t, hfind, hc⟩ := ho.composite
  obtain ⟨t', hfind', hr⟩ := h.find? hfind
  cases hr with
  | object => exact (possible_object hfind').2 ((possible_object hfind).1 ho)
  | interface hname =>
    exact (possible_interface hfind').2 (hname ▸ h.implements ((possible_interface hfind).1 ho))
  | union hmembers =>
    exact (possible_union hfind').2 ((hmembers o).1 ((possible_union hfind).1 ho))
  | other ht =>
    rw [hc] at ht
    cases ht

/-- The same types are composite in schemas that resemble each other. -/
theorem Resembles.composite (h : a.Resembles b) (hc : a.Composite name) : b.Composite name := by
  obtain ⟨t, hfind, hc⟩ := hc
  obtain ⟨t', hfind', hr⟩ := h.find? hfind
  cases hr with
  | object | interface | union => exact ⟨_, hfind', rfl⟩
  | other ht =>
    rw [hc] at ht
    cases ht

/-- Equal schemas let a type stand for the same object types. -/
theorem possible_of_beq (h : (a == b) = true) (name o : Name) :
    a.Possible name o ↔ b.Possible name o :=
  ⟨(Resembles.of_beq h).possible, (Resembles.of_beq h).symm.possible⟩

/-- In equal schemas the same types are composite. -/
theorem composite_of_beq (h : (a == b) = true) (name : Name) :
    a.Composite name ↔ b.Composite name :=
  ⟨(Resembles.of_beq h).composite, (Resembles.of_beq h).symm.composite⟩

end Schema

/-! ## States -/

/-- A question looks up the same names in equal schemas. -/
theorem Question.reads_of_beq {a b : Schema} (h : (a == b) = true) (q : Question) :
    q.reads a = q.reads b := by
  have hpair (c d : Name) : readsPair a c d = readsPair b c d := by
    unfold readsPair
    simp only [Schema.composite_of_beq h c]
  cases q with
  | type | possibleTypeNames | possibleTypes | isPossibleType => rfl
  | overlap c d | within c d | intersect c d => exact hpair c d

namespace Memo

variable {a b : Schema}

/-- Memos of equal schemas are in the same state exactly if the same entries are filled. -/
theorem sameState_iff {memo : Memo a} {memo' : Memo b} :
    memo.sameState memo' = true ↔
      (a == b) = true ∧ ∀ name, name ∈ memo.filled.keys ↔ name ∈ memo'.filled.keys := by
  rw [sameState, Bool.and_eq_true]
  refine and_congr_right fun heq => ⟨fun h name => Dict.mem_keys_of_beq h name, fun hkeys => ?_⟩
  refine Bool.and_eq_true_iff.2 ?_
  rw [List.all_eq_true, List.all_eq_true]
  refine ⟨fun e hm => ?_, fun name hm => Dict.contains_iff.2 ((hkeys name).2 hm)⟩
  obtain ⟨name, names⟩ := e
  have hfind := Dict.find?_eq_some_iff.2 hm
  obtain ⟨names', hfind'⟩ := Dict.mem_keys_iff.1 ((hkeys name).1 (Dict.mem_keys_of_mem hm))
  dsimp only
  rw [hfind', Option.some_beq_some, OrderedSet.beq_iff]
  intro o
  rw [← Schema.possible_iff (memo.coherent name names hfind),
    ← Schema.possible_iff (memo'.coherent name names' hfind'), Schema.possible_of_beq heq]

/-- Schemas that are in the same state, for instance new ones that are equal or one and its copy,
are in the same state after any two histories of questions exactly if the two histories look up the
same composite types, apart from those whose possible types were remembered before. -/
theorem sameState_asked_iff {s : Lookups a} {t : Lookups b}
    (h : s.memo.sameState t.memo = true) (history history' : List Question) :
    (s.asked history).memo.sameState (t.asked history').memo = true ↔
      ∀ name, a.Composite name → name ∉ s.memo.filled.keys →
        ((∃ q ∈ history, name ∈ q.reads a) ↔ ∃ q ∈ history', name ∈ q.reads a) := by
  obtain ⟨heq, hkeys⟩ := sameState_iff.1 h
  rw [sameState_iff, and_iff_right heq]
  refine forall_congr' fun name => ?_
  have hreads : (∃ q ∈ history', name ∈ q.reads b) ↔ ∃ q ∈ history', name ∈ q.reads a := by
    simp only [Question.reads_of_beq heq]
  rw [Lookups.mem_keys_asked, Lookups.mem_keys_asked, ← hkeys name,
    ← Schema.composite_of_beq heq name, hreads]
  by_cases hc : a.Composite name <;> by_cases hfilled : name ∈ s.memo.filled.keys <;>
    simp [hc, hfilled]

end Memo

namespace Sample

/-- One question to one of two copies, which is not asked to the other one, makes them differ,
although any two schemas from one source are equal before. The other one may ask anything else that
looks up the same names. -/
theorem copies_differ :
    (Lookups.fresh schema).memo.sameState (Lookups.fresh schema).memo = true ∧
    ((Lookups.fresh schema).asked [.possibleTypeNames "Node"]).memo.sameState
      ((Lookups.fresh schema).asked []).memo = false ∧
    ((Lookups.fresh schema).asked [.within "Node" "Leaf"]).memo.sameState
      ((Lookups.fresh schema).asked [.intersect "Leaf" "Node", .overlap "Node" "Node"]).memo =
        true := by
  have h : (Lookups.fresh schema).memo.sameState (Lookups.fresh schema).memo = true := by
    decide +kernel
  have hnode : schema.Composite "Node" := by decide +kernel
  have hleaf : schema.Composite "Leaf" := by decide +kernel
  refine ⟨h, Bool.eq_false_iff.2 fun hsame => ?_, ?_⟩
  · have hiff := (Memo.sameState_asked_iff h _ _).1 hsame "Node" hnode List.not_mem_nil
    obtain ⟨q, hq, -⟩ := hiff.1 ⟨_, .head _, .head _⟩
    cases hq
  · refine (Memo.sameState_asked_iff h _ _).2 fun name _ _ => ?_
    simp [Question.reads, Question.readsPair, hnode, hleaf]
    tauto

end Sample

end EntityGraph
