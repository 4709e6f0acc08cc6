/-! # Binary numbers

The magnitudes of 64-bit binary numbers, zero included, as a significand and a power of two.
Their arithmetic is exact arithmetic on fractions with one rounding at the end.

* `Binary.nearest`: the number nearest to a fraction, ties to the even significand;
* `Binary.timesPowerOfTen`: the product with a power of ten, rounded step by step;
* `Binary.shortest`: the digits of the shortest numeral that reads back as a number. -/

namespace ObjectQuery

/-- The magnitude `significand · 2 ^ exponent`. -/
structure Binary where
  /-- Below `2 ^ 53`. -/
  significand : Nat
  /-- At least `-1074`. -/
  exponent : Int
deriving DecidableEq, Repr

/-- The number of decimal digits of a positive number. -/
def digitCount (n : Nat) : Nat := (Nat.toDigits 10 n).length

/-- The fraction `num / den · base ^ exponent`, again as numerator and denominator. -/
def scaled (base num den : Nat) (exponent : Int) : Nat × Nat :=
  if 0 ≤ exponent then (num * Nat.pow base exponent.toNat, den)
  else (num, den * Nat.pow base (-exponent).toNat)

/-- The integer nearest to `num / den`, a tie going to the even neighbour. -/
def roundHalfEven (num den : Nat) : Nat :=
  let q := num / den
  let r := num % den
  if 2 * r < den then q else if den < 2 * r then q + 1 else q + q % 2

namespace Binary

/-- The least exponent. -/
def minExponent : Int := -1074

/-- The first significand that is too large. -/
def significandBound : Nat := Nat.pow 2 53

/-- The first significand that has all bits. -/
def fullSignificand : Nat := Nat.pow 2 52

/-- The exponent at which the significand of the positive fraction `num / den` has 53 bits, or the
least one for smaller fractions. -/
def exponentOf (num den : Nat) : Int :=
  let e := max minExponent ((num.log2 : Int) - den.log2 - 52)
  let (n, d) := scaled 2 num den (-e)
  if n / d < fullSignificand then max minExponent (e - 1) else e

/-- The binary number nearest to the positive fraction `num / den`; `none` when it is out of
range. -/
def nearest (num den : Nat) : Option Binary :=
  let e := exponentOf num den
  let (n, d) := scaled 2 num den (-e)
  let m := roundHalfEven n d
  let b : Binary := if m = significandBound then ⟨fullSignificand, e + 1⟩ else ⟨m, e⟩
  if b.exponent ≤ 971 then some b else none

/-- The number as numerator and denominator. -/
def fraction (b : Binary) : Nat × Nat := scaled 2 b.significand 1 b.exponent

/-- The largest power of ten that is in range. -/
def maxPowerOfTen : Nat := 308

/-- The product of a number and a power of ten, both factors rounded before and the product after;
`none` when one of them is out of range. -/
def timesTen (b : Binary) (power : Nat) : Option Binary := do
  let (num, den) := b.fraction
  let (n, d) := (← nearest (Nat.pow 10 power) 1).fraction
  nearest (num * n) (den * d)

/-- The quotient of a number and a power of ten, both rounded before and the quotient after. -/
def overTen (b : Binary) (power : Nat) : Option Binary := do
  let (num, den) := b.fraction
  let (n, d) := (← nearest (Nat.pow 10 power) 1).fraction
  nearest (num * d) (den * n)

/-- The number `b · 10 ^ exponent` for a whole number `b` of 64 bits. Below the least power of ten
in range it takes two divisions, and below its square nothing is left. -/
def timesPowerOfTen (b : Binary) (exponent : Int) : Option Binary :=
  let power := exponent.natAbs
  if b.significand = 0 then some b
  else if 0 ≤ exponent then if power ≤ maxPowerOfTen then b.timesTen power else none
  else if power ≤ maxPowerOfTen then b.overTen power
  else if power ≤ 2 * maxPowerOfTen then do
    (← b.overTen maxPowerOfTen).overTen (power - maxPowerOfTen)
  else some ⟨0, minExponent⟩

/-- The exponent of the highest power of ten that is at most the positive fraction `num / den`. -/
def decimalExponent (num den : Nat) : Int :=
  if den ≤ num then (digitCount (num / den) : Int) - 1
  else -(digitCount ((den + num - 1) / num - 1) : Int)

/-- The multiple of `10 ^ grid` that reads back as `b`: one of the two neighbours of `b`, the
nearer one when both do, and the even one when they are equally near. -/
def onGrid (b : Binary) (grid : Int) : Option Nat :=
  -- everything is counted in quarters of the last place of `b`
  let value := 4 * b.significand
  let low :=
    if b.significand = fullSignificand && minExponent < b.exponent then value - 1 else value - 2
  let high := value + 2
  -- one grid step is `num / den` quarters
  let (num, den) := scaled 10 1 1 grid
  let (num, den) := scaled 2 num den (2 - b.exponent)
  let down := value * den / num
  let up := down + 1
  let reads (k : Nat) : Bool :=
    if b.significand % 2 = 0 then low * den ≤ k * num && k * num ≤ high * den
    else low * den < k * num && k * num < high * den
  match reads down, reads up with
  | true, true => some (roundHalfEven (value * den) num)
  | true, false => some down
  | false, true => some up
  | false, false => none

/-- Searches the grids from the coarsest on, `steps` of them at most. -/
def shortestFrom (b : Binary) : Nat → Int → Option (Nat × Int)
  | 0, _ => none
  | steps + 1, grid =>
    match b.onGrid grid with
    | some k => some (k, grid)
    | none => shortestFrom b steps (grid - 1)

/-- The digits and the power of ten of the numeral with the fewest digits that reads back as the
positive number `b`. -/
def shortest (b : Binary) : Nat × Int :=
  let (num, den) := b.fraction
  (b.shortestFrom 18 (decimalExponent num den)).getD (0, 0)

end Binary

end ObjectQuery
