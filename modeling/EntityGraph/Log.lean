import EntityGraph.Build.Error

/-!
# The log

What the library reports about its work, in order. An event is a cause, its level and its text are
functions of it, so what a run reported can be reasoned about without looking at texts.
-/

namespace EntityGraph

/-- How important a report is. -/
inductive Level where
  | debug | trace
deriving DecidableEq

/-- The name of a level. -/
def Level.label : Level → String
  | debug => "DEBUG"
  | trace => "TRACE"

/-- Something worth a report. -/
inductive Event where
  | skippedDirective (name : Name)
  | builtSchema (types : Nat) (queryRoot : Name)
  | loadedDocument (operations fragments : Nat)
  | computingPossibleTypes (interface : Name)
  | unreachableInline (condition enclosing : Name)
  | creatingEntity (location : Location)
  | reusingFragment (name : Name)
  | buildingFragment (name : Name)
  | builtFragment (name : Name) (entities : Nat)
  | buildingOperation (kind : OperationKind) (name : Option Name)
  | builtOperation (kind : OperationKind) (name : Option Name) (entities fragments : Nat)
  | poisonedBuilder (error : BuildError)

namespace Event

/-- The level of an event. -/
def level : Event → Level
  | skippedDirective _ | computingPossibleTypes _ | unreachableInline _ _ | creatingEntity _
  | reusingFragment _ => .trace
  | builtSchema _ _ | loadedDocument _ _ | buildingFragment _ | builtFragment _ _
  | buildingOperation _ _ | builtOperation _ _ _ _ | poisonedBuilder _ => .debug

/-- The text of an event. -/
def message : Event → String
  | skippedDirective name => s!"Skipping directive definition `@{name}`."
  | builtSchema types queryRoot =>
    s!"Built schema with {types} types (query root: `{queryRoot}`)."
  | loadedDocument operations fragments =>
    s!"Loaded executable document with {operations} operation(s) and {fragments} fragment(s)."
  | computingPossibleTypes interface =>
    s!"Computing possible types for interface `{interface}`."
  | unreachableInline condition enclosing =>
    s!"`... on {condition}` cannot apply within `{enclosing}`; it is only validated."
  | creatingEntity location => s!"Creating entity at {location.render}."
  | reusingFragment name => s!"Reusing built fragment `{name}`."
  | buildingFragment name => s!"Building fragment `{name}`."
  | builtFragment name entities => s!"Built fragment `{name}` ({entities} entities)."
  | buildingOperation kind name => s!"Building {kind.keyword} `{name.getD anonymous}`."
  | builtOperation kind name entities fragments =>
    s!"Built {kind.keyword} `{name.getD anonymous}` ({entities} entities, {fragments} referenced " ++
      "fragments)."
  | poisonedBuilder error => s!"IR build failed, poisoning builder: {error.message}"

end Event

/-- The events so far, the newest first. -/
abbrev Log := List Event

end EntityGraph
