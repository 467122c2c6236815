import EntityGraph.Grammar.Value

/-!
# Declared types

The declared type of a field or an argument: a named type inside any number of lists, where each
level may or may not be null. A declared type is a value of its own; where it was written belongs to
whatever carries it. Fields can be merged at one response position only if their declared types
are the same.
-/

namespace EntityGraph

/-- A named type or a list, with its nullability. -/
inductive DeclaredType where
  | named (name : Name) (nullable : Bool)
  | list (inner : DeclaredType) (nullable : Bool)
deriving DecidableEq

namespace DeclaredType

/-- Whether the value itself may be null. -/
def nullable : DeclaredType → Bool
  | named _ n | list _ n => n

/-- The named type inside all lists. -/
def innermostName : DeclaredType → Name
  | named name _ => name
  | list inner _ => inner.innermostName

/-- Whether the named type inside all lists may be null. -/
def innermostNullable : DeclaredType → Bool
  | named _ n => n
  | list inner _ => inner.innermostNullable

/-- The mark of a type that may not be null. -/
def bang (nullable : Bool) : String := if nullable then "" else "!"

/-- The declared type, written as a type reference. -/
def render : DeclaredType → String
  | named name n => name ++ bang n
  | list inner n => "[" ++ inner.render ++ "]" ++ bang n

/-- The declared type that a type reference stands for, where `nullable` says what holds outside. -/
def ofTypeExprWith (nullable : Bool) : Grammar.TypeExpr → DeclaredType
  | .named name => named name nullable
  | .list inner => list (ofTypeExprWith true inner) nullable
  | .nonNull inner => ofTypeExprWith false inner

/-- The declared type that a type reference stands for: everything may be null unless it is marked. -/
def ofTypeExpr (t : Grammar.TypeExpr) : DeclaredType := ofTypeExprWith true t

/-- Two declared types describe the same shape of response. -/
def mergesWith (a b : DeclaredType) : Bool := a = b

end DeclaredType

end EntityGraph
