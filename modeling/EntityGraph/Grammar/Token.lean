import EntityGraph.Decimal.Binary64
import EntityGraph.Source

/-!
# Tokens

The words of GraphQL texts: punctuators, names, numbers and strings, each with the place of its
first character. A token carries the value of what was written, so a string token holds the text
without quotes and escapes.

Schema texts and executable texts are read by the external parser `graphql-parser`. The modules
under `Grammar` give the rules of that parser: which texts it accepts, and what it makes of them.
Where it goes its own way the module says so, and here it does: no more than fifty brackets may be
open at one place (`Punctuator.nest`). Only `Grammar.Literal`, the text of a value, is not the
parser's.
-/

namespace EntityGraph.Grammar

/-- The punctuators. -/
inductive Punctuator where
  | bang | dollar | openParen | closeParen | ellipsis | colon | equals | at | openBracket
  | closeBracket | openBrace | pipe | closeBrace | amp
deriving DecidableEq

namespace Punctuator

/-- The punctuator that a single character spells. -/
def ofChar? : Char → Option Punctuator
  | '!' => some bang
  | '$' => some dollar
  | '(' => some openParen
  | ')' => some closeParen
  | ':' => some colon
  | '=' => some equals
  | '@' => some .at
  | '[' => some openBracket
  | ']' => some closeBracket
  | '\x7b' => some openBrace
  | '|' => some pipe
  | '\x7d' => some closeBrace
  | '&' => some amp
  | _ => none

/-- How many brackets are open after this punctuator, when `depth` were open before it. No more
than fifty may be open at once. -/
def nest (depth : Nat) : Punctuator → Option Nat
  | openParen | openBracket | openBrace => if depth < 50 then some (depth + 1) else none
  | closeParen | closeBracket | closeBrace => some (depth - 1)
  | _ => some depth

end Punctuator

/-- What a token says. -/
inductive Lexeme where
  | punct (p : Punctuator)
  | name (n : Name)
  | int (n : Int)
  | float (x : Decimal.Binary64)
  | text (s : String)
deriving DecidableEq

/-- A token and the place of its first character. -/
structure Token where
  pos : Pos
  lexeme : Lexeme
deriving DecidableEq

end EntityGraph.Grammar
