import ObjectQuery.Text.Blank

/-! # Quoted texts

A text between double quotes, as a document writes it. The two kinds of document differ in what
it stands for:

* `Quoted.joined`: two escaped surrogates are one character, and every other character stands for
  itself;
* `Quoted.folded`: surrogates are refused, and line separators that are not escaped are folded as
  line breaks. -/

namespace ObjectQuery

/-- A character of a quoted text, as it is written. -/
inductive QuotedChar
  /-- The character itself. -/
  | plain (c : Char)
  /-- A backslash and a letter that stand for the character. -/
  | letter (c : Char)
  /-- A backslash, `u` and the four digits of a 16-bit unit. -/
  | unit (n : Nat)
deriving DecidableEq, Repr

/-- The inside of a quoted text. -/
abbrev Quoted := List QuotedChar

/-- The value of a hexadecimal digit. -/
def hexDigit? (c : Char) : Option Nat :=
  if c.isDigit then some (c.toNat - '0'.toNat)
  else if 'a' ≤ c && c ≤ 'f' then some (c.toNat - 'a'.toNat + 10)
  else if 'A' ≤ c && c ≤ 'F' then some (c.toNat - 'A'.toNat + 10)
  else none

/-- The 16-bit unit written by four hexadecimal digits. -/
def hexUnit? (a b c d : Char) : Option Nat := do
  return (((← hexDigit? a) * 16 + (← hexDigit? b)) * 16 + (← hexDigit? c)) * 16 + (← hexDigit? d)

/-- The character that an escape letter stands for. -/
def escapeLetter? : Char → Option Char
  | '"' => some '"'
  | '\\' => some '\\'
  | '/' => some '/'
  | 'b' => some '\x08'
  | 'f' => some '\x0c'
  | 'n' => some '\n'
  | 'r' => some '\r'
  | 't' => some '\t'
  | _ => none

/-- A unit that is the first half of a character outside the first plane. -/
def isHighSurrogate (unit : Nat) : Bool := 0xD800 ≤ unit && unit ≤ 0xDBFF

/-- A unit that is the second half of a character outside the first plane. -/
def isLowSurrogate (unit : Nat) : Bool := 0xDC00 ≤ unit && unit ≤ 0xDFFF

/-- The character of two surrogates. -/
def ofSurrogates (high low : Nat) : Char :=
  Char.ofNat (0x10000 + (high - 0xD800) * 0x400 + (low - 0xDC00))

/-- A character that ends a line although it is no control character of ASCII. -/
def isLineSeparator (c : Char) : Bool := c == '\u0085' || c == '\u2028' || c == '\u2029'

/-- A line separator in a folded text: the next-line character is a line feed there. -/
def foldedSeparator (c : Char) : Char := if c == '\u0085' then '\n' else c

/-- What blanks and line separators between other characters fold to. Without a separator they
stay. Otherwise only the separators stay; a line feed in front gives way to the others, or becomes
a blank where it is alone. -/
def foldBlanks (run : Text) : Text :=
  match (run.filter isLineSeparator).map foldedSeparator with
  | [] => run
  | ['\n'] => [' ']
  | '\n' :: more => more
  | kept => kept

/-- How many characters of the document the character takes. -/
def QuotedChar.width : QuotedChar → Nat
  | plain _ => 1
  | letter _ => 2
  | unit _ => 6

namespace Quoted

/-- Reads the inside of a quoted text up to its closing quote. Control characters have to be
escaped. -/
def read : Text → Option (Quoted × Text)
  | '"' :: rest => some ([], rest)
  | '\\' :: 'u' :: a :: b :: c :: d :: rest => do
    let n ← hexUnit? a b c d
    let (q, after) ← read rest
    return (.unit n :: q, after)
  | '\\' :: c :: rest => do
    let ch ← escapeLetter? c
    let (q, after) ← read rest
    return (.letter ch :: q, after)
  | c :: rest =>
    if c.toNat < 0x20 then none
    else do
      let (q, after) ← read rest
      return (.plain c :: q, after)
  | [] => none

/-- How many characters of the document the text takes, its two quotes included. -/
def width (q : Quoted) : Nat := q.foldl (fun n c => n + c.width) 2

/-- The text has a line separator that is not escaped. -/
def hasLineSeparator (q : Quoted) : Bool :=
  q.any fun
    | .plain c => isLineSeparator c
    | _ => false

/-- The text with every pair of surrogates joined; a surrogate alone is refused. -/
def joined : Quoted → Option Text
  | [] => some []
  | .plain c :: rest | .letter c :: rest => do return c :: (← joined rest)
  | .unit n :: rest =>
    if isLowSurrogate n then none
    else if isHighSurrogate n then
      match rest with
      | .unit low :: rest =>
        if isLowSurrogate low then do return ofSurrogates n low :: (← joined rest) else none
      | _ => none
    else do return Char.ofNat n :: (← joined rest)

/-- The text with its line separators folded, after blanks and separators that wait to be folded;
surrogates are refused. -/
def foldedAfter (run : Text) : Quoted → Option Text
  | [] => some (foldBlanks run)
  | .plain c :: rest =>
    if c == ' ' || isLineSeparator c then foldedAfter (run ++ [c]) rest
    else do return foldBlanks run ++ c :: (← foldedAfter [] rest)
  | .letter c :: rest => do return foldBlanks run ++ c :: (← foldedAfter [] rest)
  | .unit n :: rest =>
    if isHighSurrogate n || isLowSurrogate n then none
    else do return foldBlanks run ++ Char.ofNat n :: (← foldedAfter [] rest)

/-- The text with its line separators folded; surrogates are refused. -/
def folded (q : Quoted) : Option Text := foldedAfter [] q

end Quoted
end ObjectQuery
