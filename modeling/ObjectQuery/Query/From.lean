import ObjectQuery.Query.Basic
import ObjectQuery.Query.Error
import ObjectQuery.Text.Name
import ObjectQuery.Text.Split

/-! # Reading a `FROM` clause

A clause is parts separated by top-level commas; a part is elements, each but the first introduced
by `JOIN`, `LEFT JOIN` or `INNER JOIN`; an element has the form
`path [[AS] alias] [(ON | WITH) condition] [INDEXBY column]`.

* `elementsFrom`: the words of a part, divided into elements;
* `readElement`: one element;
* `FromList.read`: the whole clause. -/

namespace ObjectQuery

/-- The error for a fault in the form of a clause. -/
def malformed (c : Clause) (fault : SyntaxFault) : Except QueryError α :=
  .error (.malformed c fault)

/-- The join that a word introduces, with the number of words that do so. -/
def joinWord? (word : Text) (following : Option Text) : Option (JoinKind × Bool) :=
  let beforeJoin := following.any (·.isWord "JOIN")
  if word.isWord "JOIN" then some (.left, false)
  else if word.isWord "LEFT" && beforeJoin then some (.left, true)
  else if word.isWord "INNER" && beforeJoin then some (.inner, true)
  else none

/-- Divides the words of a part at the words that introduce joins. The result holds the words up
to the first such word, and then each join with the words up to the next. -/
def elementsFrom (part : Text) : List Span → List Span × List (JoinKind × List Span)
  | [] => ([], [])
  | [w] =>
    match joinWord? (w.slice part) none with
    | some (kind, _) => ([], [(kind, [])])
    | none => ([w], [])
  | w :: next :: rest =>
    match joinWord? (w.slice part) (some (next.slice part)) with
    | some (kind, true) =>
      let (first, others) := elementsFrom part rest
      ([], (kind, first) :: others)
    | some (kind, false) =>
      let (first, others) := elementsFrom part (next :: rest)
      ([], (kind, first) :: others)
    | none =>
      let (first, others) := elementsFrom part (next :: rest)
      (w :: first, others)

/-- A word that may not be an alias unless it follows `AS`. -/
def isElementKeyword (word : Text) : Bool :=
  word.isWord "ON" || word.isWord "WITH" || word.isWord "INDEXBY" || word.isWord "AS"

/-- The kind of condition that a word introduces. -/
def conditionWord? (word : Text) : Option ConditionKind :=
  if word.isWord "ON" then some .replacing
  else if word.isWord "WITH" then some .extending
  else none

/-- A part of a `FROM` clause, and where it stands. -/
structure Part where
  /-- The characters of the part. -/
  text : Text
  /-- The number of characters of the clause before the part. -/
  start : Nat
  /-- The clause. -/
  segment : Segment

/-- The path an element starts with: a component name for the root, an alias and relations for a
join. -/
def readPath (clause : Clause) (join : Option JoinKind) (word : Text) :
    Except QueryError (List String) :=
  match word.path? with
  | none => malformed clause (.invalidPath word)
  | some path =>
    match join with
    | none => if path.length = 1 then .ok path else malformed clause (.notAComponent word)
    | some _ => if path.length < 2 then malformed clause (.notARelation word) else .ok path

/-- The alias at the front of the words, and the words after it. -/
def readAlias (clause : Clause) (part path : Text) (words : List Span) :
    Except QueryError (Option String × List Span) :=
  match words with
  | [] => .ok (none, [])
  | w :: rest =>
    let word := w.slice part
    if word.isWord "AS" then
      match rest with
      | [] => malformed clause (.missingAlias path)
      | a :: rest =>
        let name := a.slice part
        if name.isIdentifier then .ok (some (String.ofList name), rest)
        else malformed clause (.missingAlias path)
    else if word.isIdentifier && !isElementKeyword word then
      .ok (some (String.ofList word), rest)
    else .ok (none, words)

/-- The condition at the front of the words, which ends before `INDEXBY`, and the words after
it. -/
def readCondition (scanner : Scanner) (clause : Clause) (join : Option JoinKind) (part : Part)
    (words : List Span) : Except QueryError (Option Condition × List Span) :=
  match words with
  | [] => .ok (none, [])
  | w :: rest =>
    match conditionWord? (w.slice part.text) with
    | none => .ok (none, words)
    | some kind =>
      if join.isNone then malformed clause .rootCondition
      else
        let (condition, rest) := rest.span fun w => !(w.slice part.text).isWord "INDEXBY"
        match condition, condition.getLast? with
        | first :: _, some last => do
          let before ← Except.inClause clause
            (scanner.placeholders (part.segment.text.take (part.start + first.start)))
          let text := (Span.mk first.start last.stop).slice part.text
          return (some ⟨kind, text, part.segment.firstParam + before⟩, rest)
        | _, _ => malformed clause .emptyCondition

/-- The `INDEXBY` column at the front of the words, and the words after it. -/
def readIndexBy (part : Text) (words : List Span) :
    Except QueryError (Option Text × List Span) :=
  match words with
  | [] => .ok (none, [])
  | w :: rest =>
    if (w.slice part).isWord "INDEXBY" then
      match rest with
      | [] => malformed .indexBy .missingIndexColumn
      | column :: rest => .ok (some (column.slice part), rest)
    else .ok (none, words)

/-- One element of a `FROM` clause; `join` is `none` for the root. -/
def readElement (scanner : Scanner) (part : Part) (join : Option JoinKind) (words : List Span) :
    Except QueryError (Source × Option Condition) := do
  let clause := if join.isSome then Clause.join else Clause.from
  match words with
  | [] => malformed clause .missingPath
  | w :: words =>
    let word := w.slice part.text
    let path ← readPath clause join word
    let (givenAlias, words) ← readAlias clause part.text word words
    let (condition, words) ← readCondition scanner clause join part words
    let (indexBy, words) ← readIndexBy part.text words
    match words with
    | [] => return (⟨path, givenAlias, indexBy⟩, condition)
    | extra :: _ => malformed clause (.unexpectedWord (extra.slice part.text))

/-- One join of a `FROM` clause. -/
def readJoin (scanner : Scanner) (part : Part) (kind : JoinKind) (words : List Span) :
    Except QueryError Joined := do
  let (source, condition) ← readElement scanner part (some kind) words
  return ⟨kind, source, condition⟩

/-- The part of a clause that a span between commas stands for, and its words. -/
def readPart (scanner : Scanner) (segment : Segment) (span : Span) :
    Except QueryError (Part × List Span) := do
  let span := span.trimmed segment.text
  if span.isEmpty then malformed .from .emptyElement
  else
    let part : Part := ⟨span.slice segment.text, span.start, segment⟩
    return (part, ← Except.inClause .from (scanner.wordSpans part.text))

/-- The joins of a part after the first one: a part other than the first starts with a left
join. -/
def readLaterPart (scanner : Scanner) (segment : Segment) (span : Span) :
    Except QueryError (List Joined) := do
  let (part, words) ← readPart scanner segment span
  let (first, others) := elementsFrom part.text words
  ((JoinKind.left, first) :: others).mapM fun e => readJoin scanner part e.1 e.2

/-- Reads a `FROM` clause. -/
def FromList.read (scanner : Scanner) (segment : Segment) : Except QueryError FromList := do
  match ← Except.inClause .from (scanner.splitSpans segment.text [',']) with
  | [] => malformed .from .emptyElement
  | span :: spans =>
    let (part, words) ← readPart scanner segment span
    let (first, others) := elementsFrom part.text words
    let (root, _) ← readElement scanner part none first
    let joins ← others.mapM fun e => readJoin scanner part e.1 e.2
    let later ← spans.mapM (readLaterPart scanner segment)
    return ⟨root, joins ++ later.flatten⟩

end ObjectQuery
