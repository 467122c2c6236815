import EntityGraph.Dict
import EntityGraph.Document
import Mathlib.Data.List.Induction
import Mathlib.Data.List.Pairwise

/-!
# Operations that can be told apart

Which definitions make up a document, and what is wrong with those that do not. The operations of a
document can be told apart (`Document.Distinct`): no name is given twice, and an operation without a
name is the only one. A repeated name is found at the first operation whose name was given before
(`Document.Repeats`), so what is reported does not depend on what follows, nor on operations without
a name. The names can be found again in two ways, by a search among the operations before, or in a
table of the places at which names stand (`Gathered`). The table is right after every definition
(`Gathered.Placed`), so no place that is read off it lies outside the operations, and both ways make
up the same document. Main statement: `Document.ofDefinitions_exact`.
-/

namespace EntityGraph

/-! ## Repeated names -/

namespace Document

/-- The names that operations have. -/
def operationNames (operations : List OperationDefinition) : List Name :=
  operations.filterMap (·.name)

/-- The operations can be told apart: names are given once, and where there is more than one
operation, each has a name. -/
structure Distinct (operations : List OperationDefinition) : Prop where
  nodup : (operationNames operations).Nodup
  named : 1 < operations.length → ∀ d ∈ operations, d.name ≠ none

/-- The operation `later` is the first one whose name is given before, and `earlier` is the one that
it is given to before. -/
def Repeats (operations : List OperationDefinition) (name : Name)
    (earlier later : OperationDefinition) : Prop :=
  ∃ before after, operations = before ++ later :: after ∧ (operationNames before).Nodup ∧
    earlier ∈ before ∧ earlier.name = some name ∧ later.name = some name

/-- The operation `d` is the first one without a name, and it is not alone. -/
def NotAlone (operations : List OperationDefinition) (d : OperationDefinition) : Prop :=
  1 < operations.length ∧ ∃ before after, operations = before ++ d :: after ∧ d.name = none ∧
    ∀ e ∈ before, e.name ≠ none

variable {operations : List OperationDefinition} {d earlier later : OperationDefinition}
  {name : Name}

/-- A name is given if an operation has it. -/
theorem mem_operationNames : name ∈ operationNames operations ↔
    ∃ d ∈ operations, d.name = some name := List.mem_filterMap

/-- The names of some operations and of more operations. -/
theorem operationNames_append (as bs : List OperationDefinition) :
    operationNames (as ++ bs) = operationNames as ++ operationNames bs := List.filterMap_append

/-- One more operation keeps the names apart if its name is new. -/
theorem nodup_operationNames_concat (h : (operationNames operations).Nodup) :
    (operationNames (operations ++ [d])).Nodup ↔
      ∀ name, d.name = some name → name ∉ operationNames operations := by
  rw [operationNames_append]
  cases hd : d.name with
  | none => simp [operationNames, hd] at h ⊢; exact h
  | some name =>
    have hlast : operationNames [d] = [name] := by simp [operationNames, hd]
    rw [hlast, List.nodup_append]
    constructor
    · rintro ⟨-, -, hdisj⟩ n hn hmem
      exact hdisj n hmem name (by simp) (Option.some.inj hn).symm
    · intro hnew
      refine ⟨h, by simp, fun a ha b hb hab => ?_⟩
      exact hnew name rfl (List.mem_singleton.1 hb ▸ hab ▸ ha)

/-- Where names are given once, operations with one name are the same. -/
theorem eq_of_name (h : (operationNames operations).Nodup) (hearlier : earlier ∈ operations)
    (hlater : later ∈ operations) (he : earlier.name = some name) (hl : later.name = some name) :
    earlier = later := by
  by_contra hne
  have hapart := List.pairwise_filterMap.1 h
  have hsymm : Std.Symm fun a b : OperationDefinition =>
      ∀ n, a.name = some n → ∀ m, b.name = some m → n ≠ m :=
    ⟨fun _ _ hab m hm n hn hmn => hab n hn m hm hmn.symm⟩
  exact hapart.forall hearlier hlater hne name he name hl rfl

/-- Where names are given once, a search by name finds the operation that has it. -/
theorem find?_name (h : (operationNames operations).Nodup) :
    operations.find? (·.name = some name) = some d ↔ d ∈ operations ∧ d.name = some name := by
  constructor
  · intro hfind
    exact ⟨List.mem_of_find?_eq_some hfind, by simpa using List.find?_some hfind⟩
  · rintro ⟨hd, hname⟩
    have hsome : (operations.find? (·.name = some name)).isSome :=
      List.find?_isSome.2 ⟨d, hd, by simpa using hname⟩
    obtain ⟨other, hother⟩ := Option.isSome_iff_exists.1 hsome
    have hothername : other.name = some name := by simpa using List.find?_some hother
    rw [hother, eq_of_name h (List.mem_of_find?_eq_some hother) hd hothername hname]

/-! ## Adding operations -/

/-- An operation with a new name, or without a name, is added. -/
theorem addOperation_new (h : ∀ name, d.name = some name → name ∉ operationNames operations) :
    addOperation operations d = .ok (operations ++ [d]) := by
  unfold addOperation
  cases hd : d.name with
  | none => rfl
  | some name =>
    have hnone : operations.find? (·.name = some name) = none := by
      refine List.find?_eq_none.2 fun e he hname => h name hd ?_
      exact mem_operationNames.2 ⟨e, he, by simpa using hname⟩
    simp only [hnone]

/-- An operation whose name is given before is refused, with the place of the operation before. -/
theorem addOperation_repeated (h : (operationNames operations).Nodup)
    (hearlier : earlier ∈ operations) (he : earlier.name = some name) (hl : later.name = some name) :
    addOperation operations later =
      .error (.duplicateOperation name earlier.location later.location) := by
  unfold addOperation
  simp only [hl, (find?_name h).2 ⟨hearlier, he⟩]

/-- Operations whose names are given once are all added. -/
theorem addAll_of_nodup (h : (operationNames operations).Nodup) :
    operations.foldlM addOperation [] = .ok operations := by
  induction operations using List.reverseRecOn with
  | nil => rfl
  | append_singleton before d ih =>
    have hbefore : (operationNames before).Nodup :=
      (List.nodup_append.1 (operationNames_append before [d] ▸ h)).1
    rw [List.foldlM_append, ih hbefore]
    change (addOperation before d >>= pure) = _
    rw [addOperation_new ((nodup_operationNames_concat hbefore).1 h)]
    rfl

/-- At the first repetition of a name nothing more is added. -/
theorem Repeats.addAll (h : Repeats operations name earlier later) :
    operations.foldlM addOperation [] =
      .error (.duplicateOperation name earlier.location later.location) := by
  obtain ⟨before, after, rfl, hnodup, hearlier, he, hl⟩ := h
  rw [List.foldlM_append, addAll_of_nodup hnodup]
  change (addOperation before later >>= fun operations => after.foldlM addOperation operations) = _
  rw [addOperation_repeated hnodup hearlier he hl]
  rfl

/-- A name that is given twice is repeated somewhere for the first time. -/
theorem exists_repeats (h : ¬ (operationNames operations).Nodup) :
    ∃ name earlier later, Repeats operations name earlier later := by
  induction operations using List.reverseRecOn with
  | nil => exact absurd List.nodup_nil h
  | append_singleton before d ih =>
    by_cases hbefore : (operationNames before).Nodup
    · rw [nodup_operationNames_concat hbefore] at h
      push Not at h
      obtain ⟨name, hd, hmem⟩ := h
      obtain ⟨e, he, hename⟩ := mem_operationNames.1 hmem
      exact ⟨name, e, d, before, [], rfl, hbefore, he, hename, hd⟩
    · obtain ⟨name, earlier, later, start, rest, rfl, hrest⟩ := ih hbefore
      exact ⟨name, earlier, later, start, rest ++ [d], by simp, hrest⟩

/-- Names that are given once are not repeated. -/
theorem Repeats.not_nodup (h : Repeats operations name earlier later) :
    ¬ (operationNames operations).Nodup := fun hnodup => by
  have hadded := h.addAll
  rw [addAll_of_nodup hnodup] at hadded
  cases hadded

/-! ## Operations without a name -/

/-- The first operation without a name is what a search for one finds. -/
theorem notAlone_iff : NotAlone operations d ↔
    1 < operations.length ∧ operations.find? (·.name.isNone) = some d := by
  unfold NotAlone
  simp only [List.find?_eq_some_iff_append, Option.isNone_iff_eq_none, Bool.not_eq_true',
    Option.isNone_eq_false_iff, ← Option.isSome_iff_ne_none]
  refine and_congr_right fun _ => ⟨?_, ?_⟩
  · rintro ⟨before, after, heq, hd, hbefore⟩
    exact ⟨hd, before, after, heq, hbefore⟩
  · rintro ⟨hd, before, after, heq, hbefore⟩
    exact ⟨before, after, heq, hd, hbefore⟩

/-- The check of operations without a name fails at the first one, if there are other operations. -/
theorem checkAnonymous_error_iff {e : DocumentError} :
    checkAnonymous operations = .error e ↔
      ∃ d, NotAlone operations d ∧ e = .anonymousNotAlone d.location := by
  unfold checkAnonymous
  simp only [notAlone_iff]
  cases hfind : operations.find? (·.name.isNone) with
  | none => simp
  | some d =>
    by_cases hlength : 1 < operations.length
    · simp [hlength, eq_comm]
    · simp [hlength]

/-- The check of operations without a name passes if each operation has one or there is only one
operation. -/
theorem checkAnonymous_ok_iff : checkAnonymous operations = .ok () ↔
    (1 < operations.length → ∀ d ∈ operations, d.name ≠ none) := by
  unfold checkAnonymous
  cases hfind : operations.find? (·.name.isNone) with
  | none => simpa using fun _ => hfind
  | some d =>
    have hd : d ∈ operations ∧ d.name = none :=
      ⟨List.mem_of_find?_eq_some hfind, by simpa using List.find?_some hfind⟩
    by_cases hlength : 1 < operations.length
    · simpa [hlength] using ⟨d, hd⟩
    · simp [hlength]

/-! ## Documents -/

variable {file : Option SourcePath} {ds : List ExecutableDefinition} {document : Document}

/-- The operations among definitions, in their order. -/
def operationsOf (ds : List ExecutableDefinition) : List OperationDefinition :=
  ds.filterMap (·.operation?)

/-- The named fragments among definitions, in their order. -/
def fragmentsOf (ds : List ExecutableDefinition) : List FragmentDefinition :=
  ds.filterMap (·.fragment?)

/-- Where a name is repeated, the first repetition is what is wrong with the definitions. -/
theorem Repeats.ofDefinitions (h : Repeats (operationsOf ds) name earlier later) :
    ofDefinitions file ds =
      .error (.duplicateOperation name earlier.location later.location) := by
  unfold Document.ofDefinitions
  rw [← operationsOf, h.addAll]
  rfl

/-- Where names are given once, only operations without a name can be wrong. -/
theorem ofDefinitions_of_nodup (h : (operationNames (operationsOf ds)).Nodup) :
    ofDefinitions file ds = (checkAnonymous (operationsOf ds)).map fun _ =>
      { file, fragments := fragmentsOf ds, operations := operationsOf ds } := by
  unfold Document.ofDefinitions
  rw [← operationsOf, addAll_of_nodup h]
  rfl

/-- Definitions make up a document exactly if their operations can be told apart. -/
theorem ofDefinitions_ok_iff : ofDefinitions file ds = .ok document ↔
    Distinct (operationsOf ds) ∧
      document = { file, fragments := fragmentsOf ds, operations := operationsOf ds } := by
  by_cases hnodup : (operationNames (operationsOf ds)).Nodup
  · rw [ofDefinitions_of_nodup hnodup]
    have hdistinct : Distinct (operationsOf ds) ↔ checkAnonymous (operationsOf ds) = .ok () := by
      rw [checkAnonymous_ok_iff]
      exact ⟨Distinct.named, fun h => ⟨hnodup, h⟩⟩
    rw [hdistinct]
    cases checkAnonymous (operationsOf ds) with
    | error e => simp [Except.map]
    | ok u => simp [Except.map, eq_comm]
  · obtain ⟨name, earlier, later, hrepeats⟩ := exists_repeats hnodup
    rw [hrepeats.ofDefinitions]
    exact ⟨fun h => (nomatch h), fun h => absurd h.1.nodup hnodup⟩

/-- What is wrong with definitions that make up no document: the first repetition of a name, or else
the first operation without a name beside others. -/
theorem ofDefinitions_error_iff {e : DocumentError} : ofDefinitions file ds = .error e ↔
    (∃ name earlier later, Repeats (operationsOf ds) name earlier later ∧
        e = .duplicateOperation name earlier.location later.location) ∨
      (operationNames (operationsOf ds)).Nodup ∧
        ∃ d, NotAlone (operationsOf ds) d ∧ e = .anonymousNotAlone d.location := by
  by_cases hnodup : (operationNames (operationsOf ds)).Nodup
  · rw [ofDefinitions_of_nodup hnodup, or_iff_right, and_iff_right hnodup,
      ← checkAnonymous_error_iff]
    · cases checkAnonymous (operationsOf ds) <;> simp [Except.map]
    · rintro ⟨name, earlier, later, hrepeats, -⟩
      exact hrepeats.not_nodup hnodup
  · rw [or_iff_left fun h => hnodup h.1]
    constructor
    · intro h
      obtain ⟨name, earlier, later, hrepeats⟩ := exists_repeats hnodup
      rw [hrepeats.ofDefinitions] at h
      exact ⟨name, earlier, later, hrepeats, (Except.error.inj h).symm⟩
    · rintro ⟨name, earlier, later, hrepeats, rfl⟩
      exact hrepeats.ofDefinitions

end Document

/-! ## A table of places -/

/-- What is kept while definitions are gone through: the fragments and the operations so far, and for
each name the place of its operation among them. -/
structure Gathered where
  fragments : List FragmentDefinition
  operations : List OperationDefinition
  places : Dict Name Nat

namespace Gathered

/-- Nothing is kept before the first definition. -/
def empty : Gathered := ⟨[], [], ∅⟩

/-- Takes in a definition. The operation that had a name before is read off the place in the table,
and there is no answer at all if that place lies outside the operations. -/
def take (g : Gathered) : ExecutableDefinition → ExceptT DocumentError Option Gathered
  | .fragment d => pure { g with fragments := g.fragments ++ [d] }
  | .operation d =>
    match d.name with
    | none => pure { g with operations := g.operations ++ [d] }
    | some name =>
      match g.places.find? name with
      | some place => do
        let other ← ExceptT.lift g.operations[place]?
        throw (.duplicateOperation name other.location d.location)
      | none => pure { g with
          operations := g.operations ++ [d]
          places := g.places.insert name g.operations.length }

/-- The document that some definitions make up, with a table of places. -/
def document (file : Option SourcePath) (ds : List ExecutableDefinition) :
    ExceptT DocumentError Option Document := do
  let g ← ds.foldlM take empty
  ExceptT.mk (some (Document.checkAnonymous g.operations))
  return { file, fragments := g.fragments, operations := g.operations }

/-- The table has the place of every name, and no others. -/
def Placed (g : Gathered) : Prop := ∀ name place, g.places.find? name = some place ↔
  ∃ d, g.operations[place]? = some d ∧ d.name = some name

variable {g : Gathered} {d : OperationDefinition} {name : Name}

/-- No operations have no places. -/
theorem empty_placed : empty.Placed := fun name place => by simp [empty]

/-- Names that stand at one place are given once. -/
theorem Placed.nodup (h : g.Placed) : (Document.operationNames g.operations).Nodup := by
  refine List.pairwise_filterMap.2 (List.pairwise_iff_getElem.2 fun i j hi hj hlt n hn m hm => ?_)
  rintro rfl
  have hplacei := (h n i).2 ⟨_, List.getElem?_eq_getElem hi, hn⟩
  have hplacej := (h n j).2 ⟨_, List.getElem?_eq_getElem hj, hm⟩
  rw [hplacei] at hplacej
  exact absurd (Option.some.inj hplacej) (Nat.ne_of_lt hlt)

/-- One more operation stands at the place after the others. -/
theorem exists_concat_iff {operations : List OperationDefinition} {n : Name} {place : Nat} :
    (∃ e, (operations ++ [d])[place]? = some e ∧ e.name = some n) ↔
      (∃ e, operations[place]? = some e ∧ e.name = some n) ∨
        place = operations.length ∧ d.name = some n := by
  rcases Nat.lt_trichotomy place operations.length with hlt | heq | hgt
  · simp [List.getElem?_append_left hlt, Nat.ne_of_lt hlt]
  · subst heq
    simp
  · have hout : operations.length ≤ place := Nat.le_of_lt hgt
    have hnone : (operations ++ [d])[place]? = none := by
      rw [List.getElem?_eq_none_iff, List.length_append]
      exact hgt
    simp [hnone, List.getElem?_eq_none hout, Nat.ne_of_gt hgt]

/-- An operation without a name needs no place. -/
theorem Placed.unnamed (h : g.Placed) (hd : d.name = none) :
    Placed { g with operations := g.operations ++ [d] } := by
  intro n place
  rw [exists_concat_iff, ← h n place, or_iff_left]
  rintro ⟨-, hn⟩
  rw [hd] at hn
  cases hn

/-- An operation with a new name gets the place after the others. -/
theorem Placed.named (h : g.Placed) (hd : d.name = some name) (hnew : g.places.find? name = none) :
    Placed { g with
      operations := g.operations ++ [d]
      places := g.places.insert name g.operations.length } := by
  intro n place
  rw [exists_concat_iff, ← h n place, Dict.find?_insert, hd]
  by_cases hn : n = name
  · subst hn
    simp [hnew, eq_comm]
  · simp [hn, Ne.symm hn]

/-- A name that is not in the table is not given yet. -/
theorem Placed.not_mem (h : g.Placed) (hnew : g.places.find? name = none) :
    name ∉ Document.operationNames g.operations := by
  intro hmem
  obtain ⟨e, he, hname⟩ := Document.mem_operationNames.1 hmem
  obtain ⟨place, hplace⟩ := List.mem_iff_getElem?.1 he
  rw [(h name place).2 ⟨e, hplace, hname⟩] at hnew
  cases hnew

/-- Taking in an operation never reads outside the operations, and adds or refuses the operation as a
search for its name does. -/
theorem Placed.take_operation (h : g.Placed) :
    (∃ g', (g.take (.operation d)).run = some (.ok g') ∧ g'.Placed ∧
        g'.fragments = g.fragments ∧
        Document.addOperation g.operations d = .ok g'.operations) ∨
      ∃ e, (g.take (.operation d)).run = some (.error e) ∧
        Document.addOperation g.operations d = .error e := by
  cases hd : d.name with
  | none =>
    refine .inl ⟨_, ?_, h.unnamed hd, rfl, Document.addOperation_new (by simp [hd])⟩
    simp only [take, hd]
    rfl
  | some name =>
    cases hplace : g.places.find? name with
    | none =>
      have hnew : ∀ n, d.name = some n → n ∉ Document.operationNames g.operations := by
        intro n hn
        rw [hd] at hn
        exact Option.some.inj hn ▸ h.not_mem hplace
      refine .inl ⟨_, ?_, h.named hd hplace, rfl, Document.addOperation_new hnew⟩
      simp only [take, hd, hplace]
      rfl
    | some place =>
      obtain ⟨other, hother, hname⟩ := (h name place).1 hplace
      have hmem : other ∈ g.operations := List.mem_of_getElem? hother
      refine .inr ⟨_, ?_, Document.addOperation_repeated h.nodup hmem hname hd⟩
      simp only [take, hd, hplace, hother]
      rfl

/-- Going through definitions never reads outside the operations, and ends with the fragments and
operations of the definitions, or as a search by name does. -/
theorem Placed.takeAll (h : g.Placed) (ds : List ExecutableDefinition) :
    (∃ g', (ds.foldlM take g).run = some (.ok g') ∧
        g'.fragments = g.fragments ++ Document.fragmentsOf ds ∧
        (Document.operationsOf ds).foldlM Document.addOperation g.operations =
          .ok g'.operations) ∨
      ∃ e, (ds.foldlM take g).run = some (.error e) ∧
        (Document.operationsOf ds).foldlM Document.addOperation g.operations = .error e := by
  induction ds generalizing g with
  | nil => exact .inl ⟨g, rfl, by simp [Document.fragmentsOf], rfl⟩
  | cons d ds ih =>
    rw [List.foldlM_cons]
    cases d with
    | fragment d =>
      have hfragments : Document.fragmentsOf (.fragment d :: ds) = d :: Document.fragmentsOf ds := rfl
      have hplaced : Placed { g with fragments := g.fragments ++ [d] } := h
      rw [hfragments, List.append_cons]
      exact ih hplaced
    | operation d =>
      have hoperations : Document.operationsOf (.operation d :: ds) =
        d :: Document.operationsOf ds := rfl
      have hfragments : Document.fragmentsOf (.operation d :: ds) = Document.fragmentsOf ds := rfl
      rw [hoperations, hfragments, List.foldlM_cons, ExceptT.run_bind]
      rcases h.take_operation (d := d) with ⟨g', hrun, hplaced, hsame, hadd⟩ | ⟨e, hrun, hadd⟩
      · rw [hrun, hadd, ← hsame]
        exact ih hplaced
      · rw [hrun, hadd]
        exact .inr ⟨e, rfl, rfl⟩

/-- With a table of places there is always an answer, and it is the same. -/
theorem document_run (file : Option SourcePath) (ds : List ExecutableDefinition) :
    (document file ds).run = some (Document.ofDefinitions file ds) := by
  rw [document, ExceptT.run_bind, Document.ofDefinitions, ← Document.operationsOf]
  rcases empty_placed.takeAll ds with ⟨g, hrun, hfragments, hadd⟩ | ⟨e, hrun, hadd⟩
  · change (Document.operationsOf ds).foldlM Document.addOperation [] = _ at hadd
    change g.fragments = Document.fragmentsOf ds at hfragments
    rw [hrun, hadd, ← Document.fragmentsOf, ← hfragments]
    simp only [bind, Except.bind, Option.bind, ExceptT.run, ExceptT.bind, ExceptT.mk]
    cases Document.checkAnonymous g.operations <;> rfl
  · change (Document.operationsOf ds).foldlM Document.addOperation [] = _ at hadd
    rw [hrun, hadd]
    rfl

end Gathered

/-! ## Main statement -/

/-- Definitions make up a document exactly if their operations can be told apart. The document has
their fragments and operations, each in their order, and a search for a name finds the one operation
that has it. If a name is repeated, what is wrong is the first operation whose name is given before,
whatever else there is, and otherwise it is the first operation without a name beside others. With a
table of places the answer is the same, and no place is read that lies outside the operations. -/
theorem Document.ofDefinitions_exact (file : Option SourcePath) (ds : List ExecutableDefinition) :
    ((∃ document, ofDefinitions file ds = .ok document) ↔ Distinct (operationsOf ds)) ∧
    (∀ document, ofDefinitions file ds = .ok document →
      document = { file, fragments := fragmentsOf ds, operations := operationsOf ds } ∧
      ∀ name d, document.operation? name = some d ↔
        d ∈ document.operations ∧ d.name = some name) ∧
    ((∃ name earlier later, Repeats (operationsOf ds) name earlier later) ↔
      ¬ (operationNames (operationsOf ds)).Nodup) ∧
    (∀ name earlier later, Repeats (operationsOf ds) name earlier later →
      ofDefinitions file ds =
        .error (.duplicateOperation name earlier.location later.location)) ∧
    (∀ d, (operationNames (operationsOf ds)).Nodup → NotAlone (operationsOf ds) d →
      ofDefinitions file ds = .error (.anonymousNotAlone d.location)) ∧
    (Gathered.document file ds).run = some (ofDefinitions file ds) := by
  refine ⟨⟨?_, fun h => ⟨_, ofDefinitions_ok_iff.2 ⟨h, rfl⟩⟩⟩, fun document h => ?_,
    ⟨?_, exists_repeats⟩, fun name earlier later h => h.ofDefinitions, fun d hnodup h => ?_,
    Gathered.document_run file ds⟩
  · rintro ⟨document, h⟩
    exact (ofDefinitions_ok_iff.1 h).1
  · obtain ⟨hdistinct, rfl⟩ := ofDefinitions_ok_iff.1 h
    exact ⟨rfl, fun name d => find?_name hdistinct.nodup⟩
  · rintro ⟨name, earlier, later, h⟩
    exact h.not_nodup
  · exact ofDefinitions_error_iff.2 (.inr ⟨hnodup, d, h, rfl⟩)

/-! ## Two operations with one name -/

namespace Twins

/-- The start of a line. -/
def line (n : Nat) : SourceLocation := .inExecutable none ⟨n, 1⟩

/-- An operation that stands on one line. -/
def operation (name : Option Name) (n : Nat) : OperationDefinition where
  location := line n
  kind := .query
  name := name
  selections := [.field none "id" (line n) []]

/-- Two operations with one name, and between them an operation without a name and a fragment. -/
def definitions : List ExecutableDefinition := [
  .operation (operation (some "Both") 1),
  .operation (operation none 2),
  .fragment ⟨line 3, "Both", [.field none "id" (line 3) []], "Node"⟩,
  .operation (operation (some "Both") 4)]

/-- The repeated name is what is wrong, although one operation has no name. Without the second
operation of that name, the one without a name is. -/
theorem both_repeated :
    Document.Repeats (Document.operationsOf definitions) "Both" (operation (some "Both") 1)
      (operation (some "Both") 4) ∧
    Document.ofDefinitions none definitions =
      .error (.duplicateOperation "Both" (line 1) (line 4)) ∧
    Document.NotAlone (Document.operationsOf definitions.dropLast) (operation none 2) ∧
    Document.ofDefinitions none definitions.dropLast = .error (.anonymousNotAlone (line 2)) := by
  have hrepeats : Document.Repeats (Document.operationsOf definitions) "Both"
      (operation (some "Both") 1) (operation (some "Both") 4) :=
    ⟨[operation (some "Both") 1, operation none 2], [], rfl, by decide, .head _, rfl, rfl⟩
  have hnotAlone : Document.NotAlone (Document.operationsOf definitions.dropLast)
      (operation none 2) :=
    ⟨by decide, [operation (some "Both") 1], [], rfl, rfl, by decide⟩
  obtain ⟨-, -, -, hduplicate, -⟩ := Document.ofDefinitions_exact none definitions
  obtain ⟨-, -, -, -, hanonymous, -⟩ := Document.ofDefinitions_exact none definitions.dropLast
  exact ⟨hrepeats, hduplicate _ _ _ hrepeats, hnotAlone, hanonymous _ (by decide) hnotAlone⟩

end Twins

end EntityGraph
