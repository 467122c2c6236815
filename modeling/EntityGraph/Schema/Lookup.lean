import EntityGraph.Log
import EntityGraph.Schema.Basic

/-!
# Questions to a schema

Which object types a composite type stands for is asked over and over while fragments are merged,
so the answers are remembered. A `Memo` holds answers that were given, and holds nothing else: each
entry is what `Schema.possibleTypes` says. Looking an answer up therefore never changes it, only
whether an interface is reported as being computed.
-/

namespace EntityGraph

/-- Answers to the question which object types a composite type of `schema` stands for. -/
structure Memo (schema : Schema) where
  /-- The composite types that were asked for, with their possible types. -/
  filled : Dict Name (OrderedSet Name)
  coherent : ∀ name names, filled.find? name = some names → schema.possibleTypes name = .ok names

namespace Memo

variable {schema : Schema}

/-- The memo before any question. -/
def empty : Memo schema := ⟨∅, fun _ _ h => nomatch h⟩

/-- Remembers an answer. -/
def fill (memo : Memo schema) (name : Name) (names : OrderedSet Name)
    (h : schema.possibleTypes name = .ok names) : Memo schema where
  filled := memo.filled.insert name names
  coherent n ns hn := by
    rw [Dict.find?_insert] at hn
    split at hn
    · next e => cases hn; exact e ▸ h
    · exact memo.coherent n ns hn

end Memo

/-- What asking questions leaves behind: the memo, and the log. -/
structure Lookups (schema : Schema) where
  memo : Memo schema
  log : Log

/-- The state before any question. -/
def Lookups.fresh (schema : Schema) : Lookups schema := ⟨.empty, []⟩

/-- Work that asks questions to `schema` and may fail with an `ε`. What was asked before a failure
stays remembered. -/
abbrev LookupM (schema : Schema) (ε : Type) := EStateM ε (Lookups schema)

/-- Two schemas are in the same state if they are equal and the same questions were asked. -/
def Memo.sameState {a b : Schema} (memoA : Memo a) (memoB : Memo b) : Bool :=
  a == b && memoA.filled == memoB.filled

namespace LookupM

variable {schema : Schema} {ε : Type}

/-- Reports an event. -/
def report (event : Event) : LookupM schema ε Unit :=
  modify fun s => { s with log := event :: s.log }

/-- An answer that needs no memo. -/
def ofExcept {α : Type} : Except ε α → LookupM schema ε α
  | .ok a => pure a
  | .error e => throw e

/-- The type of the given name. -/
def type (name : Name) : LookupM schema LookupError NamedType := ofExcept (schema.type name)

/-- The object types that the named type stands for. The first question about an interface is
reported. -/
def possibleTypeNames (name : Name) : LookupM schema LookupError (OrderedSet Name) := fun s =>
  match s.memo.filled.find? name with
  | some names => .ok names s
  | none =>
    match h : schema.possibleTypes name with
    | .error e => .error e s
    | .ok names =>
      .ok names
        { memo := s.memo.fill name names h
          log := if schema.isInterface name then .computingPossibleTypes name :: s.log else s.log }

/-- The answer never depends on what was asked before. -/
theorem possibleTypeNames_eq (name : Name) (s : Lookups schema) :
    (∃ names s', schema.possibleTypes name = .ok names ∧ possibleTypeNames name s = .ok names s') ∨
      (∃ e, schema.possibleTypes name = .error e ∧ possibleTypeNames name s = .error e s) := by
  unfold possibleTypeNames
  split
  · next names hm => exact .inl ⟨names, s, s.memo.coherent name names hm, rfl⟩
  · split
    · next e h => exact .inr ⟨e, h, rfl⟩
    · next names h => exact .inl ⟨names, _, h, rfl⟩

/-- The definitions of the object types that a type stands for. -/
def possibleTypes (type : NamedType) : LookupM schema LookupError (List FieldedType) := do
  let names ← possibleTypeNames type.name
  names.toList.mapM fun name => do
    let t ← LookupM.type name
    match t.object? with
    | some object => return object
    | none => throw (.notComposite name t.kind)

/-- Whether a value of a composite type can have the given object type. -/
def isPossibleType (composite object : Name) : LookupM schema LookupError Bool := do
  return (← possibleTypeNames composite).contains object

/-- Whether some object type satisfies both type conditions. -/
def overlap (a b : Name) : LookupM schema LookupError Bool := do
  if a = b then
    return true
  else
    let possibleA ← possibleTypeNames a
    let possibleB ← possibleTypeNames b
    return possibleA.toList.any possibleB.contains

/-- Whether every object type that satisfies `inner` satisfies `outer`. -/
def within (inner outer : Name) : LookupM schema LookupError Bool := do
  if inner = outer then
    return true
  else
    let possibleInner ← possibleTypeNames inner
    let possibleOuter ← possibleTypeNames outer
    return possibleInner.isSubset possibleOuter

/-- The conditions under which both `a` and `b` hold: the narrower one if one lies within the other,
and else the object types that they share, in the order of `a`. -/
def intersect (a b : Name) : LookupM schema LookupError (List Name) := do
  if ← within a b then
    return [a]
  else if ← within b a then
    return [b]
  else
    let possibleB ← possibleTypeNames b
    let possibleA ← possibleTypeNames a
    return possibleA.toList.filter possibleB.contains

end LookupM

end EntityGraph
