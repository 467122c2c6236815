import EntityGraph.Grammar.Lexer

/-!
# Reading tokens

A parser takes tokens off the front of a list and fails when they do not fit. A look at the next
token decides how to go on, and no parser ever tries a second reading: so it is in `graphql-parser`
too, where a reading that has taken a token must succeed. A loop is bounded by the number of tokens
that are left.
-/

namespace EntityGraph.Grammar

/-- A reader of tokens. -/
abbrev Parser := StateT (List Token) Option

namespace Parser

variable {α : Type}

/-- Takes the next token. -/
def next : Parser Lexeme
  | [] => none
  | t :: rest => some (t.lexeme, rest)

/-- The next token, which stays. -/
def peek : Parser (Option Lexeme) := fun ts => some (ts.head?.map (·.lexeme), ts)

/-- The place of the next token. -/
def position : Parser Pos
  | [] => none
  | t :: rest => some (t.pos, t :: rest)

/-- Takes the punctuator `p`. -/
def punct (p : Punctuator) : Parser Unit := do
  if (← next) = .punct p then pure () else failure

/-- Takes a name. -/
def name : Parser Name := do
  match ← next with
  | .name n => pure n
  | _ => failure

/-- Takes the name `word`. -/
def keyword (word : Name) : Parser Unit := do
  if (← next) = .name word then pure () else failure

/-- Whether the next token is the punctuator `p`. -/
def atPunct (p : Punctuator) : Parser Bool := do
  return (← peek) = some (.punct p)

/-- Whether the next token is the name `word`. -/
def atKeyword (word : Name) : Parser Bool := do
  return (← peek) = some (.name word)

/-- Takes the punctuator `p` if it is next, and tells whether it was. -/
def skipPunct (p : Punctuator) : Parser Bool := do
  if ← atPunct p then
    let _ ← next
    return true
  else
    return false

/-- Items up to the punctuator `close`, at most `bound` of them. -/
def itemsWithin (close : Punctuator) (item : Parser α) : (bound : Nat) → Parser (List α)
  | 0 => failure
  | bound + 1 => do
    if ← skipPunct close then
      return []
    else
      let a ← item
      return a :: (← itemsWithin close item bound)

/-- Items up to the punctuator `close`. -/
def items (close : Punctuator) (item : Parser α) : Parser (List α) := do
  itemsWithin close item (← get).length

/-- At least one item up to the punctuator `close`. -/
def items1 (close : Punctuator) (item : Parser α) : Parser (List α) := do
  match ← items close item with
  | [] => failure
  | as => return as

/-- At least one item between `start` and `close`, or nothing at all. -/
def group (start close : Punctuator) (item : Parser α) : Parser (List α) := do
  if ← skipPunct start then items1 close item else return []

/-- Items that each follow a `mark`, at most `bound` of them. -/
def markedWithin (mark : Punctuator) (item : Parser α) : (bound : Nat) → Parser (List α)
  | 0 => return []
  | bound + 1 => do
    if ← skipPunct mark then
      let a ← item
      return a :: (← markedWithin mark item bound)
    else
      return []

/-- Items that each follow a `mark`. -/
def marked (mark : Punctuator) (item : Parser α) : Parser (List α) := do
  markedWithin mark item (← get).length

/-- At least one item, divided by `mark`, which may also stand before the first one. -/
def divided (mark : Punctuator) (item : Parser α) : Parser (List α) := do
  let _ ← skipPunct mark
  let a ← item
  return a :: (← marked mark item)

/-- At least one item, up to the end of the tokens. -/
def toEnd (item : Parser α) : Parser (List α) := do
  let a ← item
  return a :: (← more (← get).length)
where
  /-- Items up to the end, at most `bound` of them. -/
  more : (bound : Nat) → Parser (List α)
    | 0 => do
      if (← get).isEmpty then return [] else failure
    | bound + 1 => do
      if (← get).isEmpty then
        return []
      else
        let a ← item
        return a :: (← more bound)

/-- The whole of a text, read by `parser`. -/
def parse? (parser : Parser α) (text : String) : Option α := do
  match parser (← tokens? text) with
  | some (a, []) => some a
  | _ => none

end Parser

end EntityGraph.Grammar
