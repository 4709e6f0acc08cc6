import ObjectQuery.Text.Blank

/-! # Names, paths, numerals and keywords

The small lexical classes of the query language, all of them over ASCII: an identifier is a
letter or underscore followed by letters, digits and underscores; a path is identifiers joined by
points; a numeral is digits below `2 ^ 64`; keywords are compared without regard to case. -/

namespace ObjectQuery

/-- A character that may start an identifier. -/
def isNameStart (c : Char) : Bool := c.isAlpha || c == '_'

/-- A character that may continue an identifier. -/
def isNameChar (c : Char) : Bool := c.isAlphanum || c == '_'

/-- The first value that no longer fits a count or an ordinal. -/
def countBound : Nat := Nat.pow 2 64

namespace Text

/-- A letter or underscore followed by letters, digits and underscores. -/
def isIdentifier : Text → Bool
  | [] => false
  | c :: cs => isNameStart c && cs.all isNameChar

/-- The pieces between the occurrences of a separator; one more than there are occurrences. -/
def fields (sep : Char) : Text → List Text
  | [] => [[]]
  | c :: cs =>
    if c == sep then [] :: fields sep cs
    else match fields sep cs with
      | [] => [[c]]
      | f :: fs => (c :: f) :: fs

/-- The identifiers of a path such as `u.Group.Email`. -/
def path? (t : Text) : Option (List String) :=
  let parts := fields '.' t
  if parts.all isIdentifier then some (parts.map String.ofList) else none

/-- The value of a digit string, most significant digit first. -/
def digitsValue (t : Text) : Nat := t.foldl (fun n c => 10 * n + (c.toNat - '0'.toNat)) 0

/-- The value of a non-empty string of digits, when it is below `2 ^ 64`. -/
def unsigned? (t : Text) : Option Nat :=
  if !t.isEmpty && t.all Char.isDigit && digitsValue t < countBound then some (digitsValue t)
  else none

/-- Equality up to the case of ASCII letters. -/
def sameWord (word keyword : Text) : Bool := word.map Char.toLower == keyword.map Char.toLower

/-- `sameWord` against a keyword given as a string. -/
def isWord (word : Text) (keyword : String) : Bool := sameWord word keyword.toList

/-- The text begins with the keyword, and the word it begins with ends there. -/
def startsWithWord (t keyword : Text) : Bool :=
  sameWord (t.take keyword.length) keyword &&
    match t.drop keyword.length with
    | [] => true
    | c :: _ => !isNameChar c

end Text
end ObjectQuery
