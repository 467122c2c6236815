import EntityGraph.Decimal.Shortest
import EntityGraph.Grammar.Value
import EntityGraph.Text

/-!
# The text of a value

A default value is kept as text. The text of a value is its literal: names as they are, numbers in
decimal notation, strings in quotes, lists in brackets and objects in braces, the parts divided by
a comma and a space.
-/

namespace EntityGraph.Grammar.Value

mutual

/-- The literal of a value. -/
def render : Value → String
  | .variable name => "$" ++ name
  | .int n => toString n
  | .float x => x.render
  | .string s => Text.quote s
  | .boolean b => if b then "true" else "false"
  | .null => "null"
  | .enum name => name
  | .list items => "[" ++ ", ".intercalate (renderItems items) ++ "]"
  | .object fields => "\x7b" ++ ", ".intercalate (renderFields fields) ++ "\x7d"

/-- The literals of the items of a list. -/
def renderItems : List Value → List String
  | [] => []
  | v :: rest => v.render :: renderItems rest

/-- The literals of the fields of an object. -/
def renderFields : List (Name × Value) → List String
  | [] => []
  | (name, v) :: rest => (name ++ ": " ++ v.render) :: renderFields rest

end

end EntityGraph.Grammar.Value
