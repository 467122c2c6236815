/-!
# Decimal numerals and binary64 numbers

A decimal numeral denotes `±digits · 10 ^ exponent`. Reading one as a binary64 number rounds the
exact value to the nearest number with a significand of at most 53 bits, a half going to the even
significand. All of it is integer arithmetic: a quotient is rounded once, and nothing before that
loses a digit.
-/

namespace EntityGraph.Decimal

/-- The decimal number `±digits · 10 ^ exponent`. -/
structure Numeral where
  negative : Bool
  digits : Nat
  exponent : Int
deriving DecidableEq

/-- The size of a binary64 number: `significand · 2 ^ exponent`, or beyond every finite one. -/
inductive Magnitude where
  | finite (significand : Nat) (exponent : Int)
  | infinite
deriving DecidableEq

/-- A binary64 number as a sign and a size; zero keeps its sign. -/
structure Binary64 where
  negative : Bool
  magnitude : Magnitude
deriving DecidableEq

/-- The least exponent of a binary64 number. -/
def minExponent : Int := -1074

/-- The greatest exponent of a finite binary64 number. -/
def maxExponent : Int := 971

/-- The quotient of `n` by `d`, rounded to the nearest integer, a half to the even one. -/
def roundDiv (n d : Nat) : Nat :=
  let q := n / d
  let r := n % d
  if 2 * r < d then q
  else if d < 2 * r then q + 1
  else if q % 2 = 0 then q else q + 1

/-- The number `n`, multiplied by `2 ^ e` if `e` is positive. A fraction is scaled by a power of two
by scaling its numerator or its denominator. -/
def scale (n : Nat) (e : Int) : Nat := if 0 ≤ e then n * Nat.pow 2 e.toNat else n

/-- The exponent `k` with `2 ^ k ≤ n / d < 2 ^ (k + 1)`, for positive `n` and `d`. -/
def floorLog2 (n d : Nat) : Int :=
  let k : Int := (Nat.log2 n : Int) - (Nat.log2 d : Int)
  if scale d k ≤ scale n (-k) then k else k - 1

/-- The binary64 size nearest to the positive quotient `n / d`. -/
def Magnitude.nearest (n d : Nat) : Magnitude :=
  let e := max (floorLog2 n d - 52) minExponent
  let m := roundDiv (scale n (-e)) (scale d e)
  let (m, e) := if m = Nat.pow 2 53 then (Nat.pow 2 52, e + 1) else (m, e)
  if maxExponent < e then .infinite else .finite m e

/-- The number of decimal digits of `n`. -/
def width (n : Nat) : Nat := (Nat.toDigits 10 n).length

/-- The binary64 number nearest to a numeral. Numerals of at least `10 ^ 309` are beyond every
finite number and those below `10 ^ (-324)` are nearest to zero, so only the exponents in between
are multiplied out. -/
def Numeral.toBinary64 (x : Numeral) : Binary64 :=
  let lead : Int := (width x.digits : Int) + x.exponent
  let size : Magnitude :=
    if x.digits = 0 then .finite 0 minExponent
    else if 310 ≤ lead then .infinite
    else if lead ≤ -324 then .finite 0 minExponent
    else if 0 ≤ x.exponent then .nearest (x.digits * Nat.pow 10 x.exponent.toNat) 1
    else .nearest x.digits (Nat.pow 10 (-x.exponent).toNat)
  ⟨x.negative, size⟩

end EntityGraph.Decimal
