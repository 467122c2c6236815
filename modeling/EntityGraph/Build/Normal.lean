import EntityGraph.Schema.Lookup
import EntityGraph.Selection

/-!
# Normal selections

Normalising a list of selections dissolves its inline fragments: every field and every spread is
paired with the type condition under which it was selected. An inline fragment narrows the condition
to its intersection with the enclosing one, so its selections are listed once for each condition
that the intersection consists of. An inline fragment that can never apply is listed as such, and
named fragments are not entered.
-/

namespace EntityGraph

/-- A selection with the type condition under which it was made. -/
inductive NormalSelection where
  | field (aliasName : Option Name) (name : Name) (location : SourceLocation)
      (selections : List Selection) (condition : Name)
  | spread (fragment : Name) (location : SourceLocation) (condition : Name)
  /-- An inline fragment whose own `condition` excludes the enclosing one. -/
  | unreachable (location : SourceLocation) (selections : List Selection) (condition : Name)

/-- The type condition under which a selection was made. -/
def NormalSelection.condition : NormalSelection → Name
  | field _ _ _ _ condition | spread _ _ condition | unreachable _ _ condition => condition

namespace Selection

variable {schema : Schema}

mutual

/-- One selection, made under `condition`, in normal form. -/
def normalize (condition : Name) : Selection → LookupM schema LookupError (List NormalSelection)
  | field aliasName name location selections =>
    return [.field aliasName name location selections condition]
  | spread fragment location => return [.spread fragment location condition]
  | inline none _ selections => normalizeAll condition selections
  | inline (some own) location selections => do
    let narrowed ← LookupM.intersect condition own
    if narrowed.isEmpty then
      LookupM.report (.unreachableInline own condition)
      return [.unreachable location selections own]
    else
      return (← narrowed.mapM fun c => normalizeAll c selections).flatten

/-- Selections made under `condition`, in normal form and in document order. -/
def normalizeAll (condition : Name) :
    List Selection → LookupM schema LookupError (List NormalSelection)
  | [] => return []
  | s :: rest => do
    let first ← normalize condition s
    return first ++ (← normalizeAll condition rest)

end

end Selection

end EntityGraph
