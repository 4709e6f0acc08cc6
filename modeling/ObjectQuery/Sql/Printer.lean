import ObjectQuery.Sql.Dialect
import ObjectQuery.Sql.Statement

/-! # Writing statements

A statement is written as a sequence of parts: text, and the places where values are bound. The
text of the statement and the list of its values are both read off these parts, so they always
belong together.

* `Select.parts`: the parts of a statement;
* `Statement.ofParts`: the text with its values. -/

namespace ObjectQuery
namespace Sql

/-- A part of a written statement. -/
inductive Part
  | text (t : Text)
  /-- The place of the value with the given ordinal. -/
  | bind (ordinal : Nat)
deriving DecidableEq, Repr

/-- The text of a part. -/
def Part.render : Part → Text
  | text t => t
  | bind _ => ['?']

/-- The ordinal of the value bound at a part. -/
def Part.ordinal? : Part → Option Nat
  | text _ => none
  | bind n => some n

/-- How statements are written. -/
structure Style where
  dialect : Dialect
  /-- Identifiers are quoted. -/
  quote : Bool

/-- An identifier. -/
def Style.identifier (style : Style) (name : String) : Text :=
  if style.quote then style.dialect.quoteIdentifier name else name.toList

/-- A column of a table. -/
def Style.column (style : Style) (qualifier column : String) : Text :=
  style.identifier qualifier ++ '.' :: style.identifier column

/-- The part for a text. -/
def say (s : String) : Part := .text s.toList

/-- Sequences of parts with a text between them. -/
def separated (separator : String) : List (List Part) → List Part
  | [] => []
  | [p] => p
  | p :: ps => p ++ say separator :: separated separator ps

/-- Parts between parentheses. -/
def enclosedParts (ps : List Part) : List Part := say "(" :: ps ++ [say ")"]

/-- Sequences of parts after an introduction; nothing when there are none. -/
def introduced (introduction separator : String) (ps : List (List Part)) : List Part :=
  if ps.isEmpty then [] else say introduction :: separated separator ps

/-- The end of a statement that limits its rows. A dialect that skips rows only in an ordered
statement gets an ordering that means nothing. -/
def limitParts (style : Style) (ordered : Bool) (limit offset : Option Nat) : List Part :=
  let clause := style.dialect.limitClause limit offset
  if clause.isEmpty then []
  else
    let ordering :=
      if !ordered && style.dialect.ordersBeforeOffset then [say " ORDER BY (SELECT NULL)"] else []
    ordering ++ [say " ", say clause]

mutual

/-- The parts of a term. -/
def Term.parts (style : Style) : Term → List Part
  | .raw t => [.text t]
  | .column qualifier column => [.text (style.column qualifier column)]
  | .output name => [.text (style.identifier name)]
  | .param ordinal => [.bind ordinal]
  | .equals qualifier column value =>
    [.text (style.column qualifier column), say " = ", .text (style.dialect.literal value)]
  | .select s => s.parts style

/-- The parts of terms that follow one another. -/
def Term.partsAll (style : Style) : List Term → List Part
  | [] => []
  | t :: ts => t.parts style ++ Term.partsAll style ts

/-- The parts of each of several expressions. -/
def Term.partsEach (style : Style) : List (List Term) → List (List Part)
  | [] => []
  | ts :: rest => Term.partsAll style ts :: Term.partsEach style rest

/-- The parts of an expression that may be missing, each alone. -/
def Term.partsOption (style : Style) : Option (List Term) → List (List Part)
  | none => []
  | some ts => [enclosedParts (Term.partsAll style ts)]

/-- The parts of each of several select items. -/
def Item.partsEach (style : Style) : List Item → List (List Part)
  | [] => []
  | ⟨terms, name⟩ :: rest =>
    (Term.partsAll style terms ++
      match name with
      | some name => [say " AS ", .text (style.identifier name)]
      | none => []) :: Item.partsEach style rest

/-- The parts of each of several conditions. -/
def Conjunct.partsEach (style : Style) : List Conjunct → List (List Part)
  | [] => []
  | ⟨terms, enclosed⟩ :: rest =>
    (if enclosed then enclosedParts (Term.partsAll style terms) else Term.partsAll style terms) ::
      Conjunct.partsEach style rest

/-- The parts of a source. -/
def Source.parts (style : Style) : Source → List Part
  | .table table name =>
    [say " FROM ", .text (style.identifier table), say " ", .text (style.identifier name)]
  | .derived query name spelled =>
    say " FROM (" :: query.parts style ++
      [say (if spelled then ") AS " else ") "), .text (style.identifier name)]

/-- The parts of joins that follow one another. -/
def Join.partsAll (style : Style) : List Join → List Part
  | [] => []
  | ⟨kind, table, name, on⟩ :: rest =>
    [say " ", say kind.keyword, say " ", .text (style.identifier table), say " ",
      .text (style.identifier name)] ++
      introduced " ON " " AND " (Conjunct.partsEach style on) ++ Join.partsAll style rest

/-- The parts of each of several order terms. -/
def Order.partsEach (style : Style) : List Order → List (List Part)
  | [] => []
  | ⟨terms, direction⟩ :: rest =>
    (Term.partsAll style terms ++
      match direction with
      | some direction => [say " ", say direction]
      | none => []) :: Order.partsEach style rest

/-- The parts of a statement. -/
def Select.parts (style : Style) : Select → List Part
  | ⟨distinct, items, source, joins, filter, groupBy, having, orderBy, limit, offset⟩ =>
    say (if distinct then "SELECT DISTINCT " else "SELECT ") ::
      separated ", " (Item.partsEach style items) ++ source.parts style ++
      Join.partsAll style joins ++
      introduced " WHERE " " AND " (Conjunct.partsEach style filter) ++
      introduced " GROUP BY " ", " (Term.partsEach style groupBy) ++
      introduced " HAVING " "" (Term.partsOption style having) ++
      introduced " ORDER BY " ", " (Order.partsEach style orderBy) ++
      limitParts style (!orderBy.isEmpty) limit offset

end

/-- The text of a statement, and the values in the order in which their places appear. -/
structure Statement where
  sql : String
  params : List Value
deriving DecidableEq, Repr

/-- The statement that consists of the given parts; `values` are the values the caller binds. -/
def Statement.ofParts (values : List Value) (ps : List Part) : Statement where
  sql := String.ofList (ps.flatMap Part.render)
  params := (ps.filterMap Part.ordinal?).map fun n => values.getD n .null

/-- A statement as it is written in a dialect. -/
def Select.statement (style : Style) (values : List Value) (s : Select) : Statement :=
  .ofParts values (s.parts style)

end Sql
end ObjectQuery
