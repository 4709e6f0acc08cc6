import ObjectQuery.Document.Parser
import ObjectQuery.Value.Basic

/-! # Reading values

`Value.read` reads a value in JSON notation. Whole numbers from `-2 ^ 63` up to `2 ^ 64 - 1` stay
whole; every other number is computed in binary arithmetic, `-0` included. -/

namespace ObjectQuery
namespace Value

/-- The largest magnitude of a whole number below zero. -/
def integerBound : Nat := Nat.pow 2 63

/-- A whole number other than the negative zero that fits into 64 bits. -/
def wholeOfNumeral? (n : Numeral) : Option Int :=
  if n.isWhole && -(integerBound : Int) ≤ n.int && n.int < countBound &&
      !(n.negative && n.int == 0) then some n.int
  else none

/-- The value that a numeral stands for; `none` when it is out of range. -/
def ofNumeral? (n : Numeral) : Option Value :=
  match wholeOfNumeral? n with
  | some i => some (.int i)
  | none => n.stepwise.map .decimal

mutual

/-- The value that a document stands for. -/
def ofDocument? : Document → Option Value
  | .null => some null
  | .bool b => some (bool b)
  | .number n => ofNumeral? n
  | .text s => some (string s)
  | .list items => (ofItems? items).map array
  | .map fields => (ofFields? fields).map object

/-- `ofDocument?` item by item. -/
def ofItems? : List Document → Option (List Value)
  | [] => some []
  | d :: ds => do return (← ofDocument? d) :: (← ofItems? ds)

/-- `ofDocument?` field by field. -/
def ofFields? : List (String × Document) → Option (List (String × Value))
  | [] => some []
  | (n, d) :: fs => do return (n, ← ofDocument? d) :: (← ofFields? fs)

end

/-- Reads a text that holds one value and nothing else but blanks. -/
def read (text : String) : Option Value := do
  let (d, rest) ← Document.parse ⟨Quoted.joined, fun q _ => q.joined⟩ text.toList
  if (Document.skipBlanks rest).isEmpty then ofDocument? d else none

end Value
end ObjectQuery
