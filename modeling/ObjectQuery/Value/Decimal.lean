import ObjectQuery.Value.Binary

/-! # Numbers with a fraction

A number with a fraction is held as the decimal numeral that stands for it: of the numerals that
read back as the same 64-bit binary number, those with the fewest digits, and of these the one
nearest to the number.

* `Decimal.ofDigits`: the canonical form of a numeral;
* `Decimal.ofBinary`: the numeral of a binary number;
* `Decimal.ofNumeral`: the same for the binary number that a numeral reads as;
* `Decimal.render`: its notation, positional for values from `1e-5` up to `1e16`. -/

namespace ObjectQuery

/-- The numeral `± digits · 10 ^ exponent`. -/
structure Decimal where
  /-- Below zero, or the negative zero. -/
  negative : Bool
  /-- The significant digits. -/
  digits : Nat
  /-- The power of ten they are multiplied with. -/
  exponent : Int
  /-- The digits have no trailing zero, and zero has exponent zero. -/
  canonical : digits = 0 ∧ exponent = 0 ∨ digits % 10 ≠ 0
deriving DecidableEq, Repr

namespace Decimal

/-- Moves trailing zeros of the digits into the exponent, `steps` of them at most. -/
def stripZeros : Nat → Nat → Int → Nat × Int
  | 0, digits, exponent => (digits, exponent)
  | steps + 1, digits, exponent =>
    if digits % 10 = 0 then stripZeros steps (digits / 10) (exponent + 1) else (digits, exponent)

theorem stripZeros_mod_ne_zero {steps digits : Nat} {exponent : Int} (h : digits ≠ 0)
    (hsteps : digits ≤ steps) : (stripZeros steps digits exponent).1 % 10 ≠ 0 := by
  induction steps generalizing digits exponent with
  | zero => omega
  | succ steps ih =>
    rw [stripZeros]
    split
    · exact ih (by omega) (by omega)
    · assumption

/-- Zero with a sign. -/
def zero (negative : Bool) : Decimal := ⟨negative, 0, 0, .inl ⟨rfl, rfl⟩⟩

/-- The numeral with the given digits, their trailing zeros moved into the exponent. -/
def ofDigits (negative : Bool) (digits : Nat) (exponent : Int) : Decimal :=
  if h : digits = 0 then zero negative
  else
    let stripped := stripZeros digits digits exponent
    ⟨negative, stripped.1, stripped.2, .inr (stripZeros_mod_ne_zero h (Nat.le_refl _))⟩

/-- The numeral of a binary number with a sign. -/
def ofBinary (negative : Bool) (b : Binary) : Decimal :=
  if b.significand = 0 then zero negative
  else
    let (digits, exponent) := b.shortest
    ofDigits negative digits exponent

/-- The number `± digits · 10 ^ exponent`, rounded to 64 bits, in canonical form; `none` when it
is out of range. -/
def ofNumeral (negative : Bool) (digits : Nat) (exponent : Int) : Option Decimal :=
  let order := (digitCount digits : Int) + exponent
  if digits = 0 || order < -330 then some (zero negative)
  else if 320 < order then none
  else
    let (num, den) := scaled 10 digits 1 exponent
    (Binary.nearest num den).map (ofBinary negative)

/-- The power of ten of a number, always with a sign. -/
def exponentText (exponent : Int) : List Char :=
  (if exponent < 0 then '-' else '+') :: (toString exponent.natAbs).toList

/-- The notation of a number without its sign: digits around a point while the point stands among
or near them, and otherwise one digit before the point and a power of ten. -/
def body (d : Decimal) : List Char :=
  let digits := Nat.toDigits 10 d.digits
  let point : Int := digits.length + d.exponent
  let zeros (n : Nat) : List Char := List.replicate n '0'
  if d.digits = 0 then ['0', '.', '0']
  else if 0 ≤ d.exponent && point ≤ 16 then
    digits ++ zeros d.exponent.toNat ++ ['.', '0']
  else if 0 < point && point ≤ 16 then
    digits.take point.toNat ++ '.' :: digits.drop point.toNat
  else if -5 < point && point ≤ 0 then
    '0' :: '.' :: zeros (-point).toNat ++ digits
  else
    let mantissa := match digits with
      | first :: second :: rest => first :: '.' :: second :: rest
      | other => other
    mantissa ++ 'e' :: exponentText (point - 1)

/-- The notation of a number. -/
def render (d : Decimal) : String :=
  (if d.negative then "-" else "") ++ String.ofList d.body

end Decimal
end ObjectQuery
