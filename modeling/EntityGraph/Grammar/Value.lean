import EntityGraph.Grammar.Parser

/-!
# Types, values and directives

What schema texts and executable texts have in common: references to types such as `[Int!]`, value
literals, and directives with their arguments. In `graphql-parser`, the fields of an object literal
are kept in the order of their names, and of two fields with one name the last one counts.
-/

namespace EntityGraph.Grammar

/-- A reference to a type, as it is written. -/
inductive TypeExpr where
  | named (name : Name)
  | list (inner : TypeExpr)
  | nonNull (inner : TypeExpr)
deriving DecidableEq

/-- A value literal. -/
inductive Value where
  | variable (name : Name)
  | int (n : Int)
  | float (x : Decimal.Binary64)
  | string (s : String)
  | boolean (b : Bool)
  | null
  | enum (name : Name)
  | list (items : List Value)
  | object (fields : List (Name × Value))

/-- Adds a field to fields in the order of their names, in place of one with the same name. -/
def Value.putField (name : Name) (value : Value) : List (Name × Value) → List (Name × Value)
  | [] => [(name, value)]
  | (n, v) :: rest =>
    if name < n then (name, value) :: (n, v) :: rest
    else if name = n then (name, value) :: rest
    else (n, v) :: putField name value rest

/-- The object with the given fields, where the last of equal names counts. -/
def Value.ofFields (fields : List (Name × Value)) : Value :=
  .object (fields.foldl (fun fs (n, v) => putField n v fs) [])

/-- A directive and its arguments. -/
structure Directive where
  name : Name
  arguments : List (Name × Value)

namespace Parser

/-- The type `t`, which may not be null if a `!` follows. -/
def withBang (t : TypeExpr) : List Token → TypeExpr × List Token
  | ⟨_, .punct .bang⟩ :: rest => (.nonNull t, rest)
  | ts => (t, ts)

/-- A reference to a type. -/
def typeExpr : Parser TypeExpr
  | ⟨_, .name n⟩ :: rest => some (withBang (.named n) rest)
  | ⟨_, .punct .openBracket⟩ :: rest =>
    match typeExpr rest with
    | some (t, ⟨_, .punct .closeBracket⟩ :: rest) => some (withBang (.list t) rest)
    | _ => none
  | _ => none

/-- A value nested at most `bound` levels deep. Variables may occur unless the value is to be
`constant`. -/
def valueWithin (constant : Bool) : (bound : Nat) → Parser Value
  | 0 => failure
  | bound + 1 => do
    match ← next with
    | .name "true" => return .boolean true
    | .name "false" => return .boolean false
    | .name "null" => return .null
    | .name n => return .enum n
    | .int n => return .int n
    | .float x => return .float x
    | .text s => return .string s
    | .punct .dollar => if constant then failure else return .variable (← name)
    | .punct .openBracket => return .list (← items .closeBracket (valueWithin constant bound))
    | .punct .openBrace =>
      return .ofFields (← items .closeBrace do
        let n ← name
        punct .colon
        return (n, ← valueWithin constant bound))
    | .punct _ => failure

/-- A value, in which variables may occur. -/
def value : Parser Value := do valueWithin false (← get).length

/-- A value without variables. -/
def constantValue : Parser Value := do valueWithin true (← get).length

/-- The default value that may follow a type. -/
def defaultValue : Parser (Option Value) := do
  if ← skipPunct .equals then return some (← constantValue) else return none

/-- Arguments in parentheses, if there are any. -/
def arguments : Parser (List (Name × Value)) :=
  group .openParen .closeParen do
    let n ← name
    punct .colon
    return (n, ← value)

/-- Any number of directives. -/
def directives : Parser (List Directive) :=
  marked .at do
    let n ← name
    return ⟨n, ← arguments⟩

end Parser

/-- The type reference that a text spells. -/
def TypeExpr.parse? (text : String) : Option TypeExpr := Parser.typeExpr.parse? text

/-- The value literal that a text spells. -/
def Value.parse? (text : String) : Option Value := Parser.value.parse? text

end EntityGraph.Grammar
