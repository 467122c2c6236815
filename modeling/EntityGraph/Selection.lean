import EntityGraph.Kind

/-!
# Selections and executable definitions

What an operation or a named fragment selects, exactly as it was written and not yet checked
against a schema. Arguments, variables and directives do not change which fields a response has,
so they are not kept.
-/

namespace EntityGraph

/-- A field, a spread of a named fragment, or an inline fragment. -/
inductive Selection where
  | field (aliasName : Option Name) (name : Name) (location : SourceLocation)
      (selections : List Selection)
  | spread (fragment : Name) (location : SourceLocation)
  | inline (condition : Option Name) (location : SourceLocation) (selections : List Selection)

namespace Selection

mutual

/-- Whether two selections are the same, places included. -/
def beq : Selection → Selection → Bool
  | field a n l s, field a' n' l' s' => a == a' && n == n' && l == l' && beqAll s s'
  | spread n l, spread n' l' => n == n' && l == l'
  | inline c l s, inline c' l' s' => c == c' && l == l' && beqAll s s'
  | _, _ => false

/-- Whether two lists of selections are the same. -/
def beqAll : List Selection → List Selection → Bool
  | [], [] => true
  | s :: rest, s' :: rest' => beq s s' && beqAll rest rest'
  | _, _ => false

end

instance : BEq Selection := ⟨beq⟩

mutual

/-- How many selections lie on the longest way down, this one included. -/
def height : Selection → Nat
  | field _ _ _ s => heightAll s + 1
  | spread _ _ => 1
  | inline _ _ s => heightAll s + 1

/-- The height of the highest of some selections; no selections have no height. -/
def heightAll : List Selection → Nat
  | [] => 0
  | s :: rest => max (height s) (heightAll rest)

end

end Selection

/-- The key under which a field appears in a response: its alias, or else its name. -/
def responseKey (aliasName : Option Name) (name : Name) : Name := aliasName.getD name

/-- A query, a mutation or a subscription. -/
structure OperationDefinition where
  location : SourceLocation
  kind : OperationKind
  name : Option Name
  selections : List Selection
deriving BEq

/-- A named fragment. -/
structure FragmentDefinition where
  location : SourceLocation
  name : Name
  selections : List Selection
  condition : Name
deriving BEq

/-- A definition of an executable document. -/
inductive ExecutableDefinition where
  | operation (definition : OperationDefinition)
  | fragment (definition : FragmentDefinition)

namespace ExecutableDefinition

/-- The operation, if it is one. -/
def operation? : ExecutableDefinition → Option OperationDefinition
  | operation d => some d
  | fragment _ => none

/-- The fragment, if it is one. -/
def fragment? : ExecutableDefinition → Option FragmentDefinition
  | operation _ => none
  | fragment d => some d

end ExecutableDefinition

end EntityGraph
