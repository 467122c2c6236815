import EntityGraph.Grammar.Token

/-!
# Number literals

An integer is `0` or digits that do not start with `0`, after an optional minus, and has to fit into
64 bits. A number with a fraction or an exponent is a binary64 number. A fraction has at least one
digit; an exponent starts with a sign or with one of the digits 1 to 8, and has at least one digit.
The bound of an integer, the digits that an exponent may start with, and the characters that end a
number (`endsNumber`) are rules of `graphql-parser`.
-/

namespace EntityGraph.Grammar

/-- The value of a list of decimal digits. -/
def digitsValue (digits : List Char) : Nat :=
  digits.foldl (fun n c => 10 * n + (c.toNat - '0'.toNat)) 0

/-- The leading digits, at least one, and what follows them. -/
def digits? (cs : List Char) : Option (List Char × List Char) :=
  match cs.span Char.isDigit with
  | ([], _) => none
  | (digits, rest) => some (digits, rest)

/-- The whole part of a number: a single `0`, or digits that do not start with `0`. -/
def wholePart? : List Char → Option (List Char × List Char)
  | '0' :: rest => some (['0'], rest)
  | cs => digits? cs

/-- The digits of a fraction, if one follows. -/
def fraction? : List Char → Option (Option (List Char) × List Char)
  | '.' :: rest => do
    let (digits, rest) ← digits? rest
    return (some digits, rest)
  | cs => some (none, cs)

/-- The value of what stands after the exponent mark, up to the end of the number. -/
def exponentValue? : List Char → Option Int
  | '-' :: rest => (whole? rest).map fun n => -n
  | '+' :: rest => whole? rest
  | c :: rest => if '1' ≤ c ∧ c ≤ '8' then whole? (c :: rest) else none
  | [] => none
where
  /-- The value of a text that is made of digits. -/
  whole? (cs : List Char) : Option Int :=
    match digits? cs with
    | some (digits, []) => some (digitsValue digits)
    | _ => none

/-- The exponent of a number, if it has one; nothing may follow. -/
def exponent? : List Char → Option (Option Int)
  | [] => some none
  | 'e' :: rest | 'E' :: rest => (exponentValue? rest).map some
  | _ => none

/-- The least and the greatest integer that a literal may denote. -/
def minInt : Int := -0x8000000000000000

@[inherit_doc minInt]
def maxInt : Int := 0x7fffffffffffffff

/-- The number after its sign. -/
def unsigned? (negative : Bool) (cs : List Char) : Option Lexeme := do
  let (whole, rest) ← wholePart? cs
  let (fraction, rest) ← fraction? rest
  let exponent ← exponent? rest
  match fraction, exponent with
  | none, none =>
    let n : Int := if negative then -(digitsValue whole : Int) else digitsValue whole
    if minInt ≤ n ∧ n ≤ maxInt then some (.int n) else none
  | _, _ =>
    let places := fraction.getD []
    let numeral : Decimal.Numeral :=
      ⟨negative, digitsValue (whole ++ places), exponent.getD 0 - places.length⟩
    some (.float numeral.toBinary64)

/-- The number that a text spells. -/
def number? : List Char → Option Lexeme
  | '-' :: rest => unsigned? true rest
  | cs => unsigned? false cs

/-- Whether a number ends before this character. -/
def endsNumber (c : Char) : Bool :=
  c ∈ [' ', '\n', '\r', '\t', ',', '#', '!', '$', ':', '=', '@', '|', '&', '(', ')', '[', ']',
    '\x7b', '\x7d']

end EntityGraph.Grammar
