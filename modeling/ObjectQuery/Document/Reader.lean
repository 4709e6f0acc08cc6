import ObjectQuery.Document.Parser
import ObjectQuery.Value.Decoder

/-! # Reading documents

Schemas and configurations are written in documents that are JSON and YAML at once; where the two
read a text differently, it is read as YAML.

* `Document.read`: the document that a text holds;
* `Numeral.value?`, `Document.value?`: the value that a part of a document stands for;
* the instance of `DataTree`: a number or a word without quotes is also its own text. -/

namespace ObjectQuery

namespace Numeral

/-- A whole number of 64 bits. -/
def fits64 (i : Int) : Bool := -(Nat.pow 2 63 : Int) ≤ i && i < Nat.pow 2 64

/-- A whole number of 128 bits. -/
def fits128 (i : Int) : Bool := -(Nat.pow 2 127 : Int) ≤ i && i < Nat.pow 2 128

/-- The value that a numeral stands for. A whole number of 64 bits is itself, and one of 128 bits
has no value; every other numeral is the nearest binary number, or its own text when it is out of
range. -/
def value? (n : Numeral) : Option Value :=
  if n.isWhole && fits64 n.int then some (.int n.int)
  else if n.isWhole && fits128 n.int then none
  else match n.nearest with
    | some d => some (.decimal d)
    | none => some (.string (String.ofList n.text))

end Numeral

namespace Document

/-- A character that may stand in a document, between quotes or not. -/
def isDocumentChar (c : Char) : Bool :=
  let n := c.toNat
  !(n == 0x7F || (0x80 ≤ n && n ≤ 0x9F && n != 0x85) || n == 0xFFFE || n == 0xFFFF)

/-- The most characters from the start of a name to its colon. -/
def maxNameWidth : Nat := 1024

/-- Texts are folded, and a name stands on one line with its colon and is not too far from it. -/
def rules : Rules where
  text := Quoted.folded
  name q gap :=
    if q.hasLineSeparator || gap.any (fun c => c == '\n' || c == '\r') ||
        maxNameWidth < q.width + gap.length then none
    else q.folded

/-- Blanks that may follow a document: no line starts with a tab. -/
def isClosing (t : Text) : Bool :=
  (t.dropWhile fun c => c == ' ' || c == '\t').all fun c => c == ' ' || c == '\n' || c == '\r'

/-- The document that a text holds; a text of blanks holds an empty map. No tab stands in front of
a document. -/
def read (text : String) : Option Document :=
  let t := text.toList
  let (blanks, body) := t.span isDocumentBlank
  if blanks.contains '\t' || !t.all isDocumentChar then none
  else if body.isEmpty then some (.map [])
  else do
    let (d, rest) ← parse rules body
    if isClosing rest then some d else none

mutual

/-- How deep lists and maps are nested. -/
def nesting : Document → Nat
  | list items => nestingItems items + 1
  | map fields => nestingFields fields + 1
  | _ => 0

/-- The deepest nesting among items. -/
def nestingItems : List Document → Nat
  | [] => 0
  | d :: ds => max (nesting d) (nestingItems ds)

/-- The deepest nesting among fields. -/
def nestingFields : List (String × Document) → Nat
  | [] => 0
  | (_, d) :: fs => max (nesting d) (nestingFields fs)

end

/-- How deep a value may be nested: a definition nests at most 128 deep, and four levels lead to
the value of a discriminator. -/
def maxNesting : Nat := 124

mutual

/-- The value that a document stands for, whatever its nesting. -/
def flatValue? : Document → Option Value
  | null => some .null
  | bool b => some (.bool b)
  | number n => n.value?
  | text s => some (.string s)
  | list items => (itemValues? items).map .array
  | map fields => (fieldValues? fields).map fun fs => .object (Fields.ofPairs fs)

/-- The values of items. -/
def itemValues? : List Document → Option (List Value)
  | [] => some []
  | d :: ds => do return (← flatValue? d) :: (← itemValues? ds)

/-- The values of fields, repeated names included. -/
def fieldValues? : List (String × Document) → Option (List (String × Value))
  | [] => some []
  | (n, d) :: fs => do return (n, ← flatValue? d) :: (← fieldValues? fs)

end

/-- The value that a document stands for; the last field of a name counts. -/
def value? (d : Document) : Option Value :=
  if d.nesting ≤ maxNesting then d.flatValue? else none

/-- The text of what is not a list or a map, quoted or not. -/
def string? : Document → Option String
  | null => some "null"
  | bool b => some (if b then "true" else "false")
  | number n => some (String.ofList n.text)
  | text s => some s
  | list _ | map _ => none

end Document

/-- A scalar is a string where one is asked for; truth values and numbers have no quotes. -/
instance : DataTree Document where
  isNull
    | .null => true
    | _ => false
  string? := Document.string?
  bool?
    | .bool b => some b
    | _ => none
  nat?
    | .number n => if n.isWhole && !n.negative then some (Text.digitsValue n.whole) else none
    | _ => none
  items?
    | .list items => some items
    | _ => none
  fields?
    | .map fields => some fields
    | _ => none
  value? := Document.value?

end ObjectQuery
