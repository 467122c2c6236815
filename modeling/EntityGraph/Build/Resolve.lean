import EntityGraph.Build.Visit

/-!
# Compiling operations and fragments

A named fragment is compiled when it is first asked for, and then kept. While it is being compiled
it may ask for other fragments; to ask for one that is still under construction is a cycle. Fragments
under construction are registered and distinct, so compilations are nested at most as deep as there
are definitions.
-/

namespace EntityGraph

variable {schema : Schema}

/-- Compiles a fragment definition, where `walk` enters its selections. -/
def compileFragmentBy (walk : Location → Name → List Selection → UnitM schema Unit)
    (d : FragmentDefinition) : RunM schema (Compiled FragmentDefinition) := do
  RunM.report (.buildingFragment d.name)
  let type ← RunM.ask (LookupM.type d.condition)
  if type.isComposite then
    let root := Location.ofFragment d.name d.condition
    let (_, work) ← (walk root d.condition d.selections).run .empty
    RunM.report (.builtFragment d.name work.entities.size)
    return {
      definition := d
      entities := work.entities
      referenced := work.referenced
      rootField := .single d.name d.name (.named d.condition false) (some root) d.condition
      rootLocation := root }
  else
    throw (.notComposite type.name type.kind)

/-- Compiles an operation definition, where `walk` enters its selections. -/
def compileOperationBy (walk : Location → Name → List Selection → UnitM schema Unit)
    (d : OperationDefinition) : RunM schema Operation := do
  RunM.report (.buildingOperation d.kind d.name)
  match schema.root? d.kind with
  | none => throw (.undefinedRoot d.kind)
  | some type =>
    let root := Location.ofOperation d.name type.name
    let (_, work) ← (walk root type.name d.selections).run .empty
    RunM.report (.builtOperation d.kind d.name work.entities.size work.referenced.size)
    return {
      definition := d
      entities := work.entities
      referenced := work.referenced
      rootField := .single "data" "data" (.named type.name false) (some root) type.name
      rootLocation := root }

/-- Compiles a fragment definition, where `resolve` answers its spreads. -/
def compileFragment (resolve : Name → RunM schema Fragment) (d : FragmentDefinition) :
    RunM schema (Compiled FragmentDefinition) :=
  compileFragmentBy (visit resolve) d

/-- Compiles an operation definition, where `resolve` answers its spreads. -/
def compileOperation (resolve : Name → RunM schema Fragment) (d : OperationDefinition) :
    RunM schema Operation :=
  compileOperationBy (visit resolve) d

namespace RunM

/-- Runs `work` while the fragment `name` counts as under construction. -/
def underConstruction {α : Type} (name : Name) (work : RunM schema α) : RunM schema α := fun run =>
  let mark := fun run : Run schema =>
    { run with registry.inProgress := run.registry.inProgress.insert name }
  let unmark := fun run : Run schema =>
    { run with registry.inProgress := run.registry.inProgress.erase name }
  match work (mark run) with
  | .ok a run => .ok a (unmark run)
  | .error e run => .error e (unmark run)

/-- Keeps a compiled fragment under its name. -/
def keep (name : Name) (compiled : Compiled FragmentDefinition) : RunM schema Fragment :=
  modifyGet fun run =>
    let fragment : Fragment :=
      { toCompiled := compiled, id := ⟨run.registry.id, run.registry.built.size⟩ }
    (fragment, { run with registry.built := run.registry.built.insert name fragment })

/-- The compiled fragment of the given name, or the outcome of `compile` if there is none yet. To
ask for a fragment that is still under construction is a cycle. -/
def reuseOr (name : Name) (compile : RunM schema Fragment) : RunM schema Fragment := do
  let registry := (← get).registry
  match registry.built.find? name with
  | some fragment =>
    report (.reusingFragment name)
    return fragment
  | none =>
    if registry.inProgress.contains name then
      throw (.fragmentCycle (registry.inProgress.toList.dropWhile (· ≠ name) ++ [name]))
    else
      compile

/-- The compiled fragment of the given name, when at most `depth` more compilations can be nested.
With none left every definition is under construction, so that a name which is neither compiled nor
under construction has no definition. -/
def resolveWithin : (depth : Nat) → Name → RunM schema Fragment
  | 0, name => reuseOr name (throw (.unknownFragment name))
  | depth + 1, name => reuseOr name do
    match (← get).registry.definitions.find? name with
    | some d => keep name (← underConstruction name (compileFragment (resolveWithin depth) d))
    | none => throw (.unknownFragment name)

/-- The compiled fragment of the given name, which is compiled now if it was not before. A failure
is not remembered. -/
def resolve (name : Name) : RunM schema Fragment := do
  resolveWithin (← get).registry.definitions.size name

/-- Compiles an operation. -/
def operation (d : OperationDefinition) : RunM schema Operation := compileOperation resolve d

end RunM

end EntityGraph
