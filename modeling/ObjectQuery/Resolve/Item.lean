import ObjectQuery.Query.Basic
import ObjectQuery.Resolve.State
import ObjectQuery.Resolve.Word
import ObjectQuery.Text.Split

/-! # The items of a clause

* `segmentItems`: the comma-separated items of a clause;
* `splitDirection`: the direction at the end of an item of an `ORDER BY` clause;
* `splitAlias`: the name at the end of an item of a select list. -/

namespace ObjectQuery

/-- An item of a clause, and the ordinal of its first placeholder. -/
structure Item where
  text : Text
  param : Nat
deriving DecidableEq, Repr

/-- The item that a span between commas stands for. -/
def segmentItem (scanner : Scanner) (clause : Clause) (param : Nat) (s : Segment) (span : Span) :
    Except QueryError Item := do
  let span := span.trimmed s.text
  if span.isEmpty then .error (.malformed clause .emptyItem)
  else
    let before ← Except.inClause clause (scanner.placeholders (s.text.take span.start))
    return ⟨span.slice s.text, param + s.firstParam + before⟩

/-- The items of a clause; `param` is the ordinal of the first placeholder of the query. -/
def segmentItems (scanner : Scanner) (clause : Clause) (param : Nat) (s : Segment) :
    Except QueryError (List Item) := do
  let spans ← Except.inClause clause (scanner.splitSpans s.text [','])
  spans.mapM (segmentItem scanner clause param s)

/-- A word of a direction. -/
def isDirectionWord (word : Text) : Bool :=
  ["ASC", "DESC", "NULLS", "FIRST", "LAST"].any word.isWord

/-- An item of an `ORDER BY` clause without the direction words at its end, and these words; the
first word is never one of them. -/
def splitDirection (scanner : Scanner) (item : Text) : Except Fault (Text × Option String) := do
  let words ← scanner.wordSpans item
  let trailing := (words.drop 1).reverse.takeWhile fun w => isDirectionWord (w.slice item)
  match trailing.reverse with
  | [] => return (item, none)
  | first :: rest =>
    let direction := (first :: rest).map fun w => String.ofList ((w.slice item).map Char.toUpper)
    return (Text.trim (item.take first.start), some (" ".intercalate direction))

/-- A word that the next word belongs to. -/
def endsWithOperator (word : Text) : Bool :=
  word.getLast?.any "=<>+-*/|%,".toList.contains || word.isReserved

/-- An item of a select list without the name at its end, and the name: an identifier after `AS`,
or one that cannot belong to the expression before it. -/
def splitAlias (scanner : Scanner) (item : Text) : Except Fault (Text × Option String) := do
  match (← scanner.wordSpans item).reverse with
  | last :: previous :: rest =>
    let name := last.slice item
    let before := previous.slice item
    if !rest.isEmpty && before.isWord "AS" && name.isIdentifier then
      return (Text.trim (item.take previous.start), some (String.ofList name))
    else if name.isIdentifier && !name.isReserved && !endsWithOperator before then
      return (Text.trim (item.take last.start), some (String.ofList name))
    else return (item, none)
  | _ => return (item, none)

end ObjectQuery
