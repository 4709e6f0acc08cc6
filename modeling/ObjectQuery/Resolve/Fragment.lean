import ObjectQuery.Resolve.Word
import ObjectQuery.Text.Scan

/-! # The fragments of an expression

The text of an expression is cut into fragments: text that is taken over, placeholders, words that
may name a column, and subqueries between parentheses.

* `Fragment.first`: the fragment that a text starts with;
* `Fragment.ofText`: all fragments;
* `Fragment.source`: the text of a fragment. -/

namespace ObjectQuery

/-- A fragment of an expression. -/
inductive Fragment
  /-- Text that is taken over as it stands. -/
  | verbatim (t : Text)
  | placeholder
  /-- A word, or words joined by points; `called` when a parenthesis follows. -/
  | word (w : Text) (called : Bool)
  /-- The text between a parenthesis that is followed by `SELECT` and its partner. -/
  | subquery (inner : Text)
  /-- A parameter given by name. -/
  | named (t : Text)
deriving DecidableEq, Repr

namespace Text

/-- The longest run of name characters, and of points before an identifier, at the front of a
text. -/
def reference : Text → Text
  | [] => []
  | c :: rest =>
    if isNameChar c || (c == '.' && rest.head?.any isNameStart) then c :: reference rest else []

/-- A character of a number, whatever its notation. -/
def isNumberChar (c : Char) : Bool := isNameChar c || c == '.'

end Text

namespace Fragment

/-- The text of a fragment. -/
def source : Fragment → Text
  | verbatim t | word t _ | named t => t
  | placeholder => ['?']
  | subquery inner => '(' :: inner ++ [')']

/-- The fragment that starts with an opening parenthesis. -/
def group (scanner : Scanner) (rest : Text) : Fragment :=
  if Text.startsWithWord (Text.trimStart rest) "SELECT".toList then
    match scanner.closingParen ('(' :: rest) 0 with
    | .ok close => subquery (rest.take (close - 1))
    | .error _ => verbatim ['(']
  else verbatim ['(']

/-- The fragment that starts with a colon. -/
def colon (rest : Text) : Fragment :=
  match rest with
  | ':' :: type => verbatim (':' :: ':' :: Text.reference type)
  | c :: _ => if isNameStart c then named (':' :: Text.reference rest) else verbatim [':']
  | [] => verbatim [':']

/-- The fragment that starts with the first character of a name. -/
def ofName (t : Text) : Fragment :=
  let w := Text.reference t
  word w ((Text.trimStart (t.drop w.length)).head? == some '(')

/-- The fragment that the text `c :: rest` starts with. -/
def first (scanner : Scanner) (c : Char) (rest : Text) : Fragment :=
  if c == '\'' || c == '"' then
    verbatim (c :: rest.take (scanner.literalLength (.inside c 0) rest))
  else if c == '?' then placeholder
  else if c == '(' then group scanner rest
  else if c == ':' then colon rest
  else if isNameStart c then ofName (c :: rest)
  else if c.isDigit then verbatim (c :: rest.takeWhile Text.isNumberChar)
  else verbatim [c]

/-- The fragments of a text after its first `skip` characters. -/
def ofTextFrom (scanner : Scanner) : Nat → Text → List Fragment
  | _, [] => []
  | skip + 1, _ :: rest => ofTextFrom scanner skip rest
  | 0, c :: rest =>
    let f := first scanner c rest
    f :: ofTextFrom scanner (f.source.length - 1) rest

/-- The fragments of a text. -/
def ofText (scanner : Scanner) (t : Text) : List Fragment := ofTextFrom scanner 0 t

/-- The number of placeholders in a fragment. -/
def placeholders (scanner : Scanner) : Fragment → Nat
  | placeholder => 1
  | subquery inner => (scanner.scan inner).marks.countP (·.char == '?')
  | verbatim _ | word .. | named _ => 0

/-- The fragment is a call of an aggregate function. -/
def isAggregate : Fragment → Bool
  | word w called => called && !w.contains '.' && w.isAggregateFunction
  | _ => false

end Fragment
end ObjectQuery
