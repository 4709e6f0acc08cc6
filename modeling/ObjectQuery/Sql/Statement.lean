import ObjectQuery.Query.Basic
import ObjectQuery.Value.Basic

/-! # Statements

The form of a `SELECT` statement before it is written in a dialect. Expressions are lists of
`Term`s; a term may be a statement of its own, and so may the source of a statement. -/

namespace ObjectQuery
namespace Sql

mutual

/-- A part of an expression. -/
inductive Term
  /-- Text that is written as it stands. -/
  | raw (t : Text)
  /-- A column of a table in scope. -/
  | column (qualifier column : String)
  /-- A column of the select list. -/
  | output (name : String)
  /-- The value that the caller binds to a placeholder. -/
  | param (ordinal : Nat)
  /-- A column has a given value. -/
  | equals (qualifier column : String) (value : Value)
  /-- A nested statement, without parentheses around it. -/
  | select (s : Select)

/-- An item of a select list. -/
structure Item where
  terms : List Term
  /-- The name after `AS`. -/
  name : Option String

/-- A condition that has to hold together with others. -/
structure Conjunct where
  terms : List Term
  /-- It is written between parentheses. -/
  enclosed : Bool

/-- What a statement reads from first. -/
inductive Source
  | table (table name : String)
  /-- A nested statement; `spelled` when its name follows the word `AS`. -/
  | derived (query : Select) (name : String) (spelled : Bool)

/-- A join. -/
structure Join where
  kind : JoinKind
  table : String
  name : String
  on : List Conjunct

/-- An item of an `ORDER BY` list. -/
structure Order where
  terms : List Term
  direction : Option String

/-- A `SELECT` statement. -/
structure Select where
  distinct : Bool
  items : List Item
  source : Source
  joins : List Join
  filter : List Conjunct
  groupBy : List (List Term)
  having : Option (List Term)
  orderBy : List Order
  limit : Option Nat
  offset : Option Nat

end

/-- Lists of terms with a text between them. -/
def separateTerms (separator : String) : List (List Term) → List Term
  | [] => []
  | [t] => t
  | t :: ts => t ++ .raw separator.toList :: separateTerms separator ts

end Sql
end ObjectQuery
