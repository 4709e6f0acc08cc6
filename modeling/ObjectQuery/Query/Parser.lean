import ObjectQuery.Query.From

/-! # Reading a query

A query is clauses, each a keyword and the text up to the next keyword at the top level.

* `clauseMarks`: where the clauses of a text are;
* `ClauseTexts.read`: one clause;
* `Query.parse`: the whole query. -/

namespace ObjectQuery

/-- Where a clause is: its keyword, and the text after the keyword. -/
structure ClauseMark where
  clause : Clause
  /-- Where the keyword starts. -/
  keywordStart : Nat
  /-- Where the keyword ends. -/
  contentStart : Nat
deriving DecidableEq, Repr

/-- The clause that a single word starts. -/
def clauseWord? (word : Text) : Option Clause :=
  if word.isWord "SELECT" then some .select
  else if word.isWord "FROM" then some .from
  else if word.isWord "WHERE" then some .where
  else if word.isWord "HAVING" then some .having
  else if word.isWord "LIMIT" then some .limit
  else if word.isWord "OFFSET" then some .offset
  else none

/-- The clause that two words start together. -/
def clauseWords? (word next : Text) : Option Clause :=
  if !next.isWord "BY" then none
  else if word.isWord "GROUP" then some .groupBy
  else if word.isWord "ORDER" then some .orderBy
  else none

/-- The clauses among the words of a text. -/
def clauseMarks (t : Text) : List Span → List ClauseMark
  | [] => []
  | [w] =>
    match clauseWord? (w.slice t) with
    | some clause => [⟨clause, w.start, w.stop⟩]
    | none => []
  | w :: next :: rest =>
    match clauseWord? (w.slice t) with
    | some clause => ⟨clause, w.start, w.stop⟩ :: clauseMarks t (next :: rest)
    | none =>
      match clauseWords? (w.slice t) (next.slice t) with
      | some clause => ⟨clause, w.start, next.stop⟩ :: clauseMarks t rest
      | none => clauseMarks t (next :: rest)

/-- A query while its clauses are being read. -/
structure Draft extends ClauseTexts where
  source : Option FromList := none

/-- The value of a `LIMIT` or `OFFSET` clause. -/
def readCount (clause : Clause) (t : Text) : Except QueryError Nat :=
  match t.unsigned? with
  | some n => .ok n
  | none => malformed clause (.notACount t)

/-- Whether a `SELECT` clause starts with `DISTINCT`, and the clause without that word. -/
def readDistinct (scanner : Scanner) (segment : Segment) : Except QueryError (Bool × Segment) := do
  match ← Except.inClause .query (scanner.wordSpans segment.text) with
  | [] => return (false, segment)
  | first :: _ =>
    if (first.slice segment.text).isWord "DISTINCT" then
      let rest := Text.trim (segment.text.drop first.stop)
      if rest.isEmpty then malformed .select .emptyDistinct
      else return (true, ⟨rest, segment.firstParam⟩)
    else return (false, segment)

/-- The draft with the content of one more clause. -/
def Draft.read (scanner : Scanner) (d : Draft) (clause : Clause) (segment : Segment) :
    Except QueryError Draft :=
  match clause with
  | .select => do
    let (distinct, select) ← readDistinct scanner segment
    return { d with distinct := distinct, select := some select }
  | .from => do return { d with source := some (← FromList.read scanner segment) }
  | .where => .ok { d with filter := some segment }
  | .groupBy => .ok { d with groupBy := some segment }
  | .having => .ok { d with having := some segment }
  | .orderBy => .ok { d with orderBy := some segment }
  | .limit => do return { d with limit := some (← readCount .limit segment.text) }
  | .offset => do return { d with offset := some (← readCount .offset segment.text) }
  | .query | .join | .indexBy => .ok d

/-- Reads the marked clauses one after the other; `seen` are the clauses read before. -/
def Draft.readAll (scanner : Scanner) (t : Text) :
    List Clause → Draft → List ClauseMark → Except QueryError Draft
  | _, d, [] => .ok d
  | seen, d, m :: ms => do
    let stop := (ms.head?.map (·.keywordStart)).getD t.length
    let span := (Span.mk m.contentStart stop).trimmed t
    if seen.contains m.clause then malformed m.clause .repeatedClause
    else if span.isEmpty then malformed m.clause .emptyClause
    else
      let before ← Except.inClause .query (scanner.placeholders (t.take span.start))
      let d ← d.read scanner m.clause ⟨span.slice t, before⟩
      Draft.readAll scanner t (m.clause :: seen) d ms

/-- Reads a query. -/
def Query.parse (scanner : Scanner) (t : Text) : Except QueryError Query := do
  match ← Except.inClause .query (scanner.wordSpans t) with
  | [] => malformed .query .emptyQuery
  | first :: rest =>
    let marks := clauseMarks t (first :: rest)
    if marks.head?.map (·.keywordStart) != some first.start then
      malformed .query (.noLeadingClause (first.slice t))
    else
      let d ← Draft.readAll scanner t [] {} marks
      match d.source with
      | none => malformed .from .noSource
      | some source =>
        return { d.toClauseTexts with
          source := source
          placeholders := ← Except.inClause .query (scanner.placeholders t) }

end ObjectQuery
