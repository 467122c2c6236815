import EntityGraph.Build.Normal
import EntityGraph.Build.Unit

/-!
# Walking through selections

The walk over the selections of one compilation unit creates its entities and merges fields into
them. A spread is answered by a fragment that was compiled on its own: its entities are copied to
the place of the spread, each field restricted to the conditions that hold there. Selections that
can never apply are walked through as well, for their errors only.

How a name is resolved to a compiled fragment is a parameter here. Every step down goes to selections
of smaller height, and every step into a copied fragment to a longer location of its finite storage,
so both walks carry a bound on their depth.
-/

namespace EntityGraph

namespace UnitM

variable {schema : Schema}

/-- The entity at a location, which is created if need be. -/
def entityAt (location : Location) : UnitM schema Entity := do
  match (← get).entities.find? location with
  | some entity => return entity
  | none =>
    ofRun (RunM.report (.creatingEntity location))
    let entity := Entity.new location
    modify fun w => { w with entities := w.entities.insert location entity }
    return entity

/-- Puts an entity back at its location. -/
def putEntity (location : Location) (entity : Entity) : UnitM schema Unit :=
  modify fun w => { w with entities := w.entities.insert location entity }

/-- Merges a field into the entity at a location. -/
def mergeAt (location : Location) (field : EntityField) : UnitM schema Unit := do
  let entity ← entityAt location
  putEntity location (← ofRun (RunM.ofLookup (entity.mergeField field)))

/-- Notes the use of a fragment and of the fragments that it uses itself. -/
def addReferenced (fragment : Fragment) : UnitM schema Unit :=
  modify fun w => { w with
    referenced := ((fragment.name, fragment.id) :: fragment.referenced.entries).foldl
      (fun known (name, id) => if known.contains name then known else known.insert name id)
      w.referenced }

end UnitM

namespace RunM

variable {schema : Schema}

/-- The declared type of a field that is selected on the type `condition`. -/
def fieldType (name : Name) (location : SourceLocation) (condition : Name) :
    RunM schema DeclaredType := do
  if name = typenameField then
    return typenameType
  else
    let type ← ask (LookupM.type condition)
    match type.selectableField? name with
    | some field => return field.type
    | none => throw (.unknownField condition name location)

/-- Fields may be selected only on composite types. -/
def checkLeaf (type : NamedType) (selections : List Selection) : RunM schema Unit :=
  if selections.isEmpty then pure () else throw (.notComposite type.name type.kind)

end RunM

section

variable {schema : Schema} (resolve : Name → RunM schema Fragment)

/-! ## Selections that can never apply -/

/-- Checks one normal selection, where `nested` checks selections on a type. -/
def validateSelection (nested : Name → List Selection → RunM schema Unit) :
    NormalSelection → RunM schema Unit
  | .field _ name location selections condition => do
    let declared ← RunM.fieldType name location condition
    let type ← RunM.ask (LookupM.type declared.innermostName)
    if type.isComposite then nested type.name selections else RunM.checkLeaf type selections
  | .spread fragment _ _ => do
    let _ ← resolve fragment
  | .unreachable _ selections condition => nested condition selections

/-- Checks selections of a bounded height: every field exists and every spread resolves. -/
def validateWithin : (height : Nat) → Name → List Selection → RunM schema Unit
  | 0, _, _ => pure ()
  | height + 1, condition, selections => do
    let normal ← RunM.ask (Selection.normalizeAll condition selections)
    normal.forM (validateSelection resolve (validateWithin height))

/-- Checks selections on a type without contributing anything. -/
def validate (condition : Name) (selections : List Selection) : RunM schema Unit :=
  validateWithin resolve (Selection.heightAll selections) condition selections

/-! ## Copying compiled fragments -/

/-- The conditions of a copied field, each narrowed to `condition`. -/
def narrowConditions (conditions : List Name) (condition : Name) :
    LookupM schema LookupError (OrderedSet Name) :=
  conditions.foldlM (fun narrowed c => do
    return narrowed.insertAll (← LookupM.intersect c condition)) ∅

/-- Copies one field to the entity at `target`, where `nested` copies the entity that it leads to. A
field that cannot apply under `condition` is left out. -/
def copyField (nested : (target source : Location) → Name → UnitM schema Unit) (target : Location)
    (condition : Name) (field : EntityField) : UnitM schema Unit := do
  let conditions ← UnitM.ask (narrowConditions field.conditions.toList condition)
  if conditions.isEmpty then
    return ()
  else
    let child ←
      match field.child with
      | some source => do
        let child := target.append field.key source.typeName
        nested child source source.typeName
        pure (some child)
      | none => pure none
    UnitM.mergeAt target { field with child, conditions }

/-- Copies the entity at `source` of a fragment to `target`, at most `depth` levels down. -/
def copyWithin (fragment : Fragment) :
    (depth : Nat) → (target source : Location) → Name → UnitM schema Unit
  | 0, _, _, _ => pure ()
  | depth + 1, target, source, condition => do
    match fragment.entities.find? source with
    | none => pure ()
    | some entity =>
      let known ← UnitM.entityAt target
      UnitM.putEntity target { known with
        mergedFragments :=
          (known.mergedFragments.insert fragment.name).insertAll entity.mergedFragments.toList }
      entity.fields.values.forM (copyField (copyWithin fragment depth) target condition)

/-- Copies a fragment to the entity at `target`, as far as `condition` allows. -/
def copyFragment (fragment : Fragment) (target : Location) (condition : Name) :
    UnitM schema Unit :=
  copyWithin fragment fragment.entities.size target fragment.rootLocation condition

/-! ## Selections that contribute -/

/-- Enters a field, where `nested` enters the selections on it. -/
def visitField (nested : Location → Name → List Selection → UnitM schema Unit)
    (location : Location) (aliasName : Option Name) (name : Name) (place : SourceLocation)
    (selections : List Selection) (condition : Name) : UnitM schema Unit := do
  let declared ← UnitM.ofRun (RunM.fieldType name place condition)
  let type ← UnitM.ask (LookupM.type declared.innermostName)
  let key := responseKey aliasName name
  let child ←
    if type.isComposite then do
      let child := location.append key type.name
      nested child type.name selections
      pure (some child)
    else do
      UnitM.ofRun (RunM.checkLeaf type selections)
      pure none
  UnitM.mergeAt location (.single key name declared child condition)

/-- Enters a spread: the fragment is compiled if need be, and copied to the location. -/
def visitSpread (location : Location) (name : Name) (condition : Name) : UnitM schema Unit := do
  let fragment ← UnitM.ofRun (resolve name)
  UnitM.addReferenced fragment
  let conditions ← UnitM.ask (LookupM.intersect condition fragment.definition.condition)
  conditions.forM (copyFragment fragment location)

/-- Enters one normal selection, where `nested` enters the selections on a field. -/
def visitSelection (nested : Location → Name → List Selection → UnitM schema Unit)
    (location : Location) : NormalSelection → UnitM schema Unit
  | .field aliasName name place selections condition =>
    visitField nested location aliasName name place selections condition
  | .spread fragment _ condition => visitSpread resolve location fragment condition
  | .unreachable _ selections condition =>
    UnitM.ofRun (validate resolve condition selections)

/-- Enters selections of a bounded height. -/
def visitWithin : (height : Nat) → Location → Name → List Selection → UnitM schema Unit
  | 0, location, _, _ => do
    let _ ← UnitM.entityAt location
  | height + 1, location, condition, selections => do
    let _ ← UnitM.entityAt location
    let normal ← UnitM.ask (Selection.normalizeAll condition selections)
    normal.forM (visitSelection resolve (visitWithin height) location)

/-- Enters the selections that are made on the entity at a location, under a condition. -/
def visit (location : Location) (condition : Name) (selections : List Selection) :
    UnitM schema Unit :=
  visitWithin resolve (Selection.heightAll selections) location condition selections

end

end EntityGraph
