import EntityGraph.Text

/-!
# String literals

A string stands between double quotes on one line and may hold escapes. A block string stands
between triple quotes, may span lines, and loses the indentation that its lines share and the empty
lines around it; its only escape is a backslash before a triple quote.

The escapes are those of `graphql-parser`. An escaped `b` is the code point 0x10, not the backspace.
An escaped `u` takes the next four characters, which are hexadecimal digits or a plus and three of
them, and no surrogates. As in this parser, indentation is measured in bytes and is any white space
(`Text.isBlank`).
-/

namespace EntityGraph.Grammar

/-! ## Strings on one line -/

/-- The text up to the first quote that no backslash escapes, and what follows that quote. -/
def stringBody? : List Char → Option (List Char × List Char)
  | [] => none
  | '"' :: rest => some ([], rest)
  | '\n' :: _ => none
  | '\\' :: c :: rest =>
    if c = '\n' then none
    else (stringBody? rest).map fun (body, rest) => ('\\' :: c :: body, rest)
  | c :: rest => (stringBody? rest).map fun (body, rest) => (c :: body, rest)

/-- The value of one hexadecimal digit. -/
def hexValue? (c : Char) : Option Nat :=
  if '0' ≤ c ∧ c ≤ '9' then some (c.toNat - '0'.toNat)
  else if 'a' ≤ c ∧ c ≤ 'f' then some (c.toNat - 'a'.toNat + 10)
  else if 'A' ≤ c ∧ c ≤ 'F' then some (c.toNat - 'A'.toNat + 10)
  else none

/-- The value of hexadecimal digits. -/
def hexDigitsValue? (cs : List Char) : Option Nat :=
  cs.foldlM (fun n c => (hexValue? c).map (16 * n + ·)) 0

/-- The character that four characters after a `\u` stand for: four hexadecimal digits, or three
after a plus. Surrogates are no characters. -/
def codePoint? (a b c d : Char) : Option Char := do
  let n ← hexDigitsValue? (if a = '+' then [b, c, d] else [a, b, c, d])
  if n.isValidChar then some (Char.ofNat n) else none

/-- The character that a backslash and one more character stand for. -/
def simpleEscape? : Char → Option Char
  | '"' => some '"'
  | '\\' => some '\\'
  | '/' => some '/'
  | 'b' => some '\x10'
  | 'f' => some '\x0c'
  | 'n' => some '\n'
  | 'r' => some '\r'
  | 't' => some '\t'
  | _ => none

/-- The text that a string body denotes. -/
def unescape? : List Char → Option (List Char)
  | [] => some []
  | '\\' :: 'u' :: a :: b :: c :: d :: rest => do
    return (← codePoint? a b c d) :: (← unescape? rest)
  | '\\' :: c :: rest => do
    return (← simpleEscape? c) :: (← unescape? rest)
  | '\\' :: [] => none
  | c :: rest => (unescape? rest).map (c :: ·)

/-! ## Block strings -/

/-- The text up to the first triple quote without a backslash before it, and what follows that
triple quote. Triple quotes are looked for from left to right and do not overlap. -/
def blockBody? (escaped : Bool) : List Char → Option (List Char × List Char)
  | [] => none
  | '"' :: '"' :: '"' :: rest =>
    if escaped then (blockBody? false rest).map fun (body, rest) => ('"' :: '"' :: '"' :: body, rest)
    else some ([], rest)
  | c :: rest => (blockBody? (c = '\\') rest).map fun (body, rest) => (c :: body, rest)

/-- The lines of a text. A line ends at a line feed, with or without a carriage return before it; a
line end at the end of the text opens no further line. -/
def lines : List Char → List (List Char)
  | [] => []
  | ['\n'] | ['\r', '\n'] => [[]]
  | '\n' :: rest => [] :: lines rest
  | '\r' :: '\n' :: rest => [] :: lines rest
  | c :: rest =>
    match lines rest with
    | [] => [[c]]
    | line :: more => (c :: line) :: more

/-- Whether a line holds nothing but white space. -/
def isBlankLine (line : List Char) : Bool := line.all Text.isBlank

/-- The size of a text in bytes. -/
def byteSize : List Char → Nat
  | [] => 0
  | c :: cs => c.utf8Size + byteSize cs

/-- The bytes of white space that a line starts with. -/
def indentation (line : List Char) : Nat := byteSize (line.takeWhile Text.isBlank)

/-- The text after its first `n` bytes. -/
def dropBytes : Nat → List Char → List Char
  | 0, cs => cs
  | _, [] => []
  | n + 1, c :: cs => dropBytes (n + 1 - c.utf8Size) cs

/-- The least indentation of the lines that are not blank. -/
def commonIndentation (lines : List (List Char)) : Option Nat :=
  ((lines.filter fun line => !isBlankLine line).map indentation).min?

/-- Takes the first `n` bytes off a line that has as many. -/
def unindent (n : Nat) (line : List Char) : List Char :=
  if n ≤ byteSize line then dropBytes n line else line

/-- Writes every escaped triple quote as the triple quote it stands for. -/
def unescapeBlock : List Char → List Char
  | '\\' :: '"' :: '"' :: '"' :: rest => '"' :: '"' :: '"' :: unescapeBlock rest
  | c :: rest => c :: unescapeBlock rest
  | [] => []

/-- Takes the blank lines off both ends. -/
def trimBlankLines (lines : List (List Char)) : List (List Char) :=
  ((lines.dropWhile isBlankLine).reverse.dropWhile isBlankLine).reverse

/-- The text that the body of a block string denotes. The first line keeps its indentation. -/
def blockValue (body : List Char) : List Char :=
  let indented :=
    match lines body with
    | [] => []
    | first :: rest =>
      match commonIndentation rest with
      | none => first :: rest
      | some n => first :: rest.map (unindent n)
  unescapeBlock (List.intercalate ['\n'] (trimBlankLines indented))

end EntityGraph.Grammar
