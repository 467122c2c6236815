import EntityGraph.Decimal.Binary64

/-!
# Shortest decimal text

A binary64 number is written with the fewest decimal digits that read back as the same number; of
several such decimals the nearest one is taken, and of two equally near the larger. The digits are
laid out by place value, never with an exponent: `1`, `0.0000001`, `1000000000000000000000`.
-/

namespace EntityGraph.Decimal

/-- The decimals that round to one binary64 number. The numbers `low`, `value` and `high` are
numerators over the common denominator `den`; the ends belong to it if `closed`. -/
structure Basin where
  low : Nat
  value : Nat
  high : Nat
  den : Nat
  closed : Bool

/-- The decimals nearest to `m · 2 ^ e`. The gap below a power of two is half the gap above it, and
the ends round to an even significand. -/
def Basin.of (m : Nat) (e : Int) : Basin :=
  let below := if m = Nat.pow 2 52 ∧ minExponent < e then 1 else 2
  let unit := scale 1 (e - 2)
  { low := (4 * m - below) * unit
    value := 4 * m * unit
    high := (4 * m + 2) * unit
    den := scale 1 (2 - e)
    closed := m % 2 = 0 }

/-- The multiple of `10 ^ p` in the basin that is nearest to its value, given as the factor. Only
the two multiples around the value need a look. -/
def Basin.multiple? (b : Basin) (p : Int) : Option Nat :=
  let step := if 0 ≤ p then b.den * Nat.pow 10 p.toNat else b.den
  let zoom := if 0 ≤ p then 1 else Nat.pow 10 (-p).toNat
  let inside (x : Nat) : Bool :=
    if b.closed then b.low * zoom ≤ x && x ≤ b.high * zoom
    else b.low * zoom < x && x < b.high * zoom
  let v := b.value * zoom
  let d := v / step
  if inside (d * step) then
    if inside ((d + 1) * step) && (d + 1) * step - v ≤ v - d * step then some (d + 1) else some d
  else if inside ((d + 1) * step) then some (d + 1)
  else none

/-- The coarsest grid `10 ^ p` that meets the basin, from `p` downwards, and its point there. -/
def Basin.coarsest (b : Basin) : Nat → Int → Nat × Int
  | 0, p => (b.value / b.den, p)
  | n + 1, p =>
    match b.multiple? p with
    | some d => (d, p)
    | none => b.coarsest n (p - 1)

/-- The digits and the exponent of the shortest decimal for `m · 2 ^ e`, with `m` positive. Twenty
grids are enough: the first one is coarser than the value, and the seventeenth place below the
value's first digit always tells neighbours apart. -/
def shortest (m : Nat) (e : Int) : Nat × Int :=
  let b := Basin.of m e
  b.coarsest 20 ((width b.value : Int) - (width b.den : Int) + 1)

/-- The decimal digits of `d · 10 ^ p`, laid out by place value. -/
def positional (d : Nat) (p : Int) : String :=
  let digits := Nat.toDigits 10 d
  if 0 ≤ p then String.ofList (digits ++ List.replicate p.toNat '0')
  else
    let places := (-p).toNat
    let padded := List.replicate (places + 1 - digits.length) '0' ++ digits
    let whole := padded.length - places
    String.ofList (padded.take whole ++ ['.'] ++ padded.drop whole)

/-- The text of a size. -/
def Magnitude.render : Magnitude → String
  | .infinite => "inf"
  | .finite 0 _ => "0"
  | .finite (m + 1) e =>
    let (d, p) := shortest (m + 1) e
    positional d p

/-- The text of a binary64 number; also zero shows its sign. -/
def Binary64.render (x : Binary64) : String :=
  if x.negative then "-" ++ x.magnitude.render else x.magnitude.render

end EntityGraph.Decimal
