import EntityGraph.Schema.Lookup

/-!
# Entities

An entity holds what is selected at one response location. Its fields are kept under their response
key and their declared type, each with the type conditions under which it is in the response.
Merging a field into an entity unites the conditions of equal fields (`Entity.mergeField`); a second
type for one response key is allowed only if no object type can have both.
-/

namespace EntityGraph

/-- A field selected on an entity, merged from every selection that reached it. -/
structure EntityField where
  /-- Where the selected fields of a composite value are found. -/
  child : Option Location
  /-- The name of the field in the schema. -/
  name : Name
  /-- The key of the field in the response. -/
  key : Name
  type : DeclaredType
  /-- The types under which the field is in the response; none of them lies within another. -/
  conditions : OrderedSet Name
deriving BEq

/-- A field that is selected under one condition. -/
def EntityField.single (key name : Name) (type : DeclaredType) (child : Option Location)
    (condition : Name) : EntityField :=
  { child, name, key, type, conditions := .singleton condition }

/-- What fields of one entity are told apart by. -/
structure FieldKey where
  key : Name
  type : DeclaredType
deriving DecidableEq

/-- What a field is kept under. -/
def EntityField.fieldKey (f : EntityField) : FieldKey := ⟨f.key, f.type⟩

/-- The merged selections at one response location. -/
structure Entity where
  /-- The fields in the order of their first selection. -/
  fields : Dict FieldKey EntityField
  location : Location
  /-- The named fragments whose selections were merged in. -/
  mergedFragments : OrderedSet Name
  rootType : Name
deriving BEq

/-- The entities of one compilation unit, in the order of their creation. -/
abbrev Storage := Dict Location Entity

/-! ## Sets of conditions -/

namespace Conditions

variable {schema : Schema}

/-- The members of a list that a new condition makes superfluous, or nothing if one of them already
covers the new condition. Of two conditions with the same possible types the one with the smaller
name stays. -/
def superseded? (condition : Name) : List Name → LookupM schema LookupError (Option (List Name))
  | [] => return some []
  | existing :: rest => do
    let newWithin ← LookupM.within condition existing
    let oldWithin ← LookupM.within existing condition
    if newWithin && !(oldWithin && decide (condition < existing)) then
      return none
    else
      let more ← superseded? condition rest
      return more.map fun names => if oldWithin then existing :: names else names

/-- Adds a condition, unless it is covered; conditions that it covers are dropped. -/
def insert (conditions : OrderedSet Name) (condition : Name) :
    LookupM schema LookupError (OrderedSet Name) := do
  match ← superseded? condition conditions.toList with
  | none => return conditions
  | some gone => return (conditions.filter fun c => !gone.contains c).insert condition

/-- Adds conditions, first to last. -/
def insertAll (conditions : OrderedSet Name) (new : List Name) :
    LookupM schema LookupError (OrderedSet Name) :=
  new.foldlM insert conditions

end Conditions

/-- A question to the schema as part of a build: what the schema cannot answer, the build fails
with. -/
def LookupM.asked {schema : Schema} {α : Type} (question : LookupM schema LookupError α) :
    LookupM schema BuildError α := fun s =>
  match question s with
  | .ok a s => .ok a s
  | .error e s => .error (.ofLookup e) s

namespace Entity

variable {schema : Schema}

/-- The entity at a location before anything is selected there. -/
def new (location : Location) : Entity :=
  { fields := ∅, location, mergedFragments := ∅, rootType := location.typeName }

/-- The fields with the given response key. -/
def fieldsFor (entity : Entity) (key : Name) : List EntityField :=
  entity.fields.values.filter (·.key = key)

/-- The field with the given response key, if there is exactly one. -/
def field? (entity : Entity) (key : Name) : Option EntityField :=
  match entity.fieldsFor key with
  | [f] => some f
  | _ => none

/-- An existing field allows an incoming one: it has another key or the same type, or no object type
satisfies a condition of both. -/
def checkPair (location : Location) (existing incoming : EntityField) :
    LookupM schema BuildError Unit := do
  if existing.key ≠ incoming.key ∨ existing.type.mergesWith incoming.type then
    return ()
  else
    existing.conditions.toList.forM fun old =>
      incoming.conditions.toList.forM fun new => do
        if ← (LookupM.overlap old new).asked then
          throw (.mergeConflict location incoming.key existing.type incoming.type)

/-- Merges a field into an entity. -/
def mergeField (entity : Entity) (incoming : EntityField) : LookupM schema BuildError Entity := do
  entity.fields.values.forM fun existing => checkPair entity.location existing incoming
  let merged : EntityField ←
    match entity.fields.find? incoming.fieldKey with
    | some existing => do
      let conditions ← (Conditions.insertAll existing.conditions incoming.conditions.toList).asked
      pure { existing with conditions, child := existing.child <|> incoming.child }
    | none => do
      let conditions ← (Conditions.insertAll ∅ incoming.conditions.toList).asked
      pure { incoming with conditions }
  return { entity with fields := entity.fields.insert incoming.fieldKey merged }

end Entity

end EntityGraph
