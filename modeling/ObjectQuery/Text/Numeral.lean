import ObjectQuery.Text.Blank

/-! # Bounded numerals

Whole numbers below a bound, written in digits after an optional plus sign. Where a numeral is
wrong in two ways, the first character at which it is wrong decides. -/

namespace ObjectQuery

/-- Why a text is no numeral. -/
inductive NumeralFault
  | empty
  | invalidDigit
  | tooLarge
deriving DecidableEq, Repr

/-- The wording of the fault. -/
def NumeralFault.message : NumeralFault → String
  | empty => "cannot parse integer from empty string"
  | invalidDigit => "invalid digit found in string"
  | tooLarge => "number too large to fit in target type"

/-- Adds one more digit to a number below `bound`. -/
def pushDigit (bound n : Nat) (c : Char) : Except NumeralFault Nat :=
  if !c.isDigit then .error .invalidDigit
  else
    let n := 10 * n + (c.toNat - '0'.toNat)
    if n < bound then .ok n else .error .tooLarge

/-- The number below `bound` that a text stands for. -/
def Text.numeral (bound : Nat) (t : Text) : Except NumeralFault Nat :=
  match t with
  | [] => .error .empty
  | ['+'] => .error .invalidDigit
  | '+' :: digits => digits.foldlM (pushDigit bound) 0
  | digits => digits.foldlM (pushDigit bound) 0

end ObjectQuery
