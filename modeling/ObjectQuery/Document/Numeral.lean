import ObjectQuery.Text.Name
import ObjectQuery.Value.Decimal

/-! # Numerals

A number as a document writes it: an optional minus sign, a whole part without leading zeros, and
then a fraction and a power of ten, either of which may be missing.

* `Numeral.read`: the numeral at the front of a text;
* `Numeral.text`: the text of a numeral;
* `Numeral.int`, `Numeral.nearest`, `Numeral.stepwise`: what it stands for. -/

namespace ObjectQuery

/-- The power of ten at the end of a numeral. -/
structure PowerOfTen where
  /-- The letter in front of it, in either case. -/
  letter : Char
  /-- Its sign, where one is written. -/
  sign : Option Char
  /-- Its digits, at least one. -/
  digits : Text
deriving DecidableEq, Repr

/-- A number as it is written. -/
structure Numeral where
  /-- A minus sign is written. -/
  negative : Bool
  /-- The digits before the point, at least one. -/
  whole : Text
  /-- The digits after the point, at least one. -/
  fraction : Option Text
  power : Option PowerOfTen
deriving DecidableEq, Repr

namespace PowerOfTen

/-- The text of the power. -/
def text (p : PowerOfTen) : Text := p.letter :: (p.sign.toList ++ p.digits)

/-- The exponent that the power stands for. -/
def exponent (p : PowerOfTen) : Int :=
  let n : Int := Text.digitsValue p.digits
  if p.sign = some '-' then -n else n

/-- Reads a power, if there is one. A letter without digits after it is an error. -/
def read : Text → Option (Option PowerOfTen × Text)
  | letter :: rest =>
    if letter = 'e' || letter = 'E' then
      let (sign, rest) := match rest with
        | c :: after => if c = '-' || c = '+' then (some c, after) else (none, rest)
        | [] => (none, rest)
      let (digits, rest) := rest.span Char.isDigit
      if digits.isEmpty then none else some (some ⟨letter, sign, digits⟩, rest)
    else some (none, letter :: rest)
  | [] => some (none, [])

end PowerOfTen

namespace Numeral

/-- The text of the numeral. -/
def text (n : Numeral) : Text :=
  (if n.negative then ['-'] else []) ++ n.whole ++ n.fraction.elim [] ('.' :: ·) ++
    n.power.elim [] PowerOfTen.text

/-- Reads a fraction, if there is one. A point without digits after it is an error. -/
def readFraction : Text → Option (Option Text × Text)
  | '.' :: rest =>
    let (digits, rest) := rest.span Char.isDigit
    if digits.isEmpty then none else some (some digits, rest)
  | t => some (none, t)

/-- Reads the numeral at the front of a text. -/
def read (t : Text) : Option (Numeral × Text) := do
  let (negative, t) := match t with
    | '-' :: rest => (true, rest)
    | _ => (false, t)
  let (whole, t) := t.span Char.isDigit
  if whole.isEmpty || (whole.length > 1 && whole.head? == some '0') then none
  let (fraction, t) ← readFraction t
  let (power, t) ← PowerOfTen.read t
  return (⟨negative, whole, fraction, power⟩, t)

/-- The numeral has neither a fraction nor a power of ten. -/
def isWhole (n : Numeral) : Bool := n.fraction.isNone && n.power.isNone

/-- The whole number before the point. -/
def int (n : Numeral) : Int :=
  let m : Int := Text.digitsValue n.whole
  if n.negative then -m else m

/-- The digits after the point. -/
def fractionDigits (n : Numeral) : Text := n.fraction.getD []

/-- The power of ten, zero where none is written. -/
def exponent (n : Numeral) : Int := n.power.elim 0 PowerOfTen.exponent

/-- The binary number nearest to the numeral; `none` when it is out of range. -/
def nearest (n : Numeral) : Option Decimal :=
  Decimal.ofNumeral n.negative (Text.digitsValue (n.whole ++ n.fractionDigits))
    (n.exponent - n.fractionDigits.length)

/-- Appends digits to a significand while it stays below `2 ^ 64`, and counts the digits taken. -/
def appendDigits (significand : Nat) : Text → Nat × Nat
  | [] => (significand, 0)
  | c :: cs =>
    let m := Text.digitsValue [c] + 10 * significand
    if m < countBound then
      let (m, count) := appendDigits m cs
      (m, count + 1)
    else (significand, 0)

/-- The numeral computed in binary arithmetic with one rounding a step: a significand of at most
64 bits from the first digits, then its product or quotient with a power of ten. Up to fifteen
digits and twenty-two powers of ten this is the nearest number. -/
def stepwise (n : Numeral) : Option Decimal := do
  let (m, whole) := appendDigits 0 n.whole
  let (m, fraction) := appendDigits m n.fractionDigits
  let exponent := n.exponent + (n.whole.length - whole : Nat) - fraction
  return .ofBinary n.negative (← (← Binary.nearest m 1).timesPowerOfTen exponent)

end Numeral
end ObjectQuery
