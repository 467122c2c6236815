import EntityGraph.Grammar.Number
import EntityGraph.Grammar.Text

/-!
# From characters to tokens

`tokens?` splits a text into tokens and gives up on a text that has none. Between tokens stand
spaces, commas, tabs, line ends, byte order marks and comments. Places are counted as
`graphql-parser` counts them: a tab is eight columns, carriage returns and byte order marks do not
move the place, and a comment ends at a carriage return or a line feed, either of which starts a new
line.
-/

namespace EntityGraph

namespace Pos

/-- The place `n` columns further. -/
def right (p : Pos) (n : Nat) : Pos := ⟨p.line, p.column + n⟩

/-- The start of the next line. -/
def nextLine (p : Pos) : Pos := ⟨p.line + 1, 1⟩

/-- The place after the text of a token. -/
def after (p : Pos) (text : List Char) : Pos :=
  text.foldl (fun p c => if c = '\n' then p.nextLine else p.right 1) p

end Pos

namespace Grammar

/-- Whether a name may start with this character. -/
def isNameStart (c : Char) : Bool := c.isAlpha || c = '_'

/-- Whether a name may go on with this character. -/
def isNameRest (c : Char) : Bool := c.isAlphanum || c = '_'

/-- The first token of a text: what it says, its characters, and the characters after it. -/
def lexeme? : List Char → Option (Lexeme × List Char × List Char)
  | '.' :: '.' :: '.' :: rest => some (.punct .ellipsis, ['.', '.', '.'], rest)
  | '"' :: '"' :: '"' :: rest => do
    let (body, rest) ← blockBody? false rest
    return (.text (.ofList (blockValue body)), ['"', '"', '"'] ++ body ++ ['"', '"', '"'], rest)
  | '"' :: rest => do
    let (body, rest) ← stringBody? rest
    let value ← unescape? body
    return (.text (.ofList value), '"' :: body ++ ['"'], rest)
  | c :: rest =>
    if isNameStart c then
      let (name, rest) := (c :: rest).span isNameRest
      some (.name (.ofList name), name, rest)
    else if c.isDigit || c = '-' then do
      let (text, rest) := rest.span fun c => !endsNumber c
      return (← number? (c :: text), c :: text, rest)
    else do
      return (.punct (← Punctuator.ofChar? c), [c], rest)
  | [] => none

/-- How many brackets are open after a token. -/
def Lexeme.nest (depth : Nat) : Lexeme → Option Nat
  | .punct p => p.nest depth
  | _ => some depth

/-- Whether a comment ends at this character. -/
def endsComment (c : Char) : Bool := c = '\n' || c = '\r'

/-- The tokens of a text that starts at `pos`, where `depth` brackets are open. Every round takes at
least one character, so the length of the text is enough `fuel`. -/
def scan : (fuel : Nat) → Pos → (depth : Nat) → List Char → Option (List Token)
  | _, _, _, [] => some []
  | 0, _, _, _ :: _ => none
  | fuel + 1, pos, depth, c :: rest =>
    if c = ' ' ∨ c = ',' then scan fuel (pos.right 1) depth rest
    else if c = '\t' then scan fuel (pos.right 8) depth rest
    else if c = '\n' then scan fuel pos.nextLine depth rest
    else if c = '\r' ∨ c = '\ufeff' then scan fuel pos depth rest
    else if c = '#' then
      match rest.dropWhile fun c => !endsComment c with
      | [] => some []
      | _ :: rest => scan fuel pos.nextLine depth rest
    else do
      let (lexeme, text, rest) ← lexeme? (c :: rest)
      let depth ← lexeme.nest depth
      let more ← scan fuel (pos.after text) depth rest
      return ⟨pos, lexeme⟩ :: more

/-- The tokens of a text, if it is made of tokens. -/
def tokens? (text : String) : Option (List Token) :=
  let cs := text.toList
  scan cs.length .start 0 cs

end Grammar

end EntityGraph
