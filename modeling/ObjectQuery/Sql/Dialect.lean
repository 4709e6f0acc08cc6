import ObjectQuery.Text.Blank
import ObjectQuery.Text.Name
import ObjectQuery.Value.Printer

/-! # Dialects of SQL

What differs from one database to the next: how identifiers are quoted, how a number of rows is
limited, how truth values are written, and what a limited subquery has to look like.

* `Dialect.quoteIdentifier`, `Dialect.literal`: names and values;
* `Dialect.limitClause`: the end of a limited statement. -/

namespace ObjectQuery

/-- A dialect of SQL. -/
inductive Dialect
  | mysql | pgsql | sqlite | oracle | mssql
deriving DecidableEq, Repr

/-- Writes every occurrence of a character twice. -/
def doubled (quote : Char) (t : Text) : Text :=
  t.flatMap fun c => if c == quote then [c, c] else [c]

theorem doubled_cons (q c : Char) (t : Text) :
    doubled q (c :: t) = if c = q then q :: q :: doubled q t else c :: doubled q t := by
  by_cases hc : c = q
  · subst hc
    simp [doubled]
  · simp [doubled, hc]

theorem doubled_append (q : Char) (a b : Text) : doubled q (a ++ b) = doubled q a ++ doubled q b :=
  List.flatMap_append

theorem doubled_eq_self {q : Char} {t : Text} (h : q ∉ t) : doubled q t = t := by
  induction t with
  | nil => rfl
  | cons c t ih =>
    rw [List.mem_cons, not_or] at h
    rw [doubled_cons, if_neg (Ne.symm h.1), ih h.2]

namespace Dialect

/-- The name of a dialect. -/
def name : Dialect → String
  | mysql => "mysql"
  | pgsql => "pgsql"
  | sqlite => "sqlite"
  | oracle => "oracle"
  | mssql => "mssql"

/-- The dialect that a driver name stands for, whatever its case. -/
def ofName? (name : String) : Option Dialect :=
  match String.ofList (name.toList.map Char.toLower) with
  | "mysql" | "mariadb" => some mysql
  | "pgsql" | "postgres" | "postgresql" => some pgsql
  | "sqlite" => some sqlite
  | "oracle" | "oci" => some oracle
  | "mssql" | "sqlsrv" => some mssql
  | _ => none

/-- The characters around a quoted identifier. -/
def quotes : Dialect → Char × Char
  | mysql => ('\x60', '\x60')
  | mssql => ('[', ']')
  | pgsql | sqlite | oracle => ('"', '"')

/-- A quoted identifier; the closing character stands for itself when it is doubled. -/
def quoteIdentifier (d : Dialect) (name : String) : Text :=
  d.quotes.1 :: doubled d.quotes.2 name.toList ++ [d.quotes.2]

/-- A text between single quotes, with the quotes inside doubled. -/
def quoteLiteral (t : Text) : Text := '\'' :: doubled '\'' t ++ ['\'']

/-- A value as it is written in a statement. Lists and objects are written as their text. -/
def literal (d : Dialect) (v : Value) : Text :=
  match v with
  | .null => "NULL".toList
  | .bool b =>
    match d with
    | pgsql => if b then "TRUE".toList else "FALSE".toList
    | mysql | sqlite | oracle | mssql => if b then ['1'] else ['0']
  | .int _ | .decimal _ => v.render.toList
  | .string s => quoteLiteral s.toList
  | .array _ | .object _ => quoteLiteral v.render.toList

/-- The number of rows that stands for no limit where a limit must be written. -/
def unlimited : Dialect → Option String
  | mysql => some "18446744073709551615"
  | sqlite => some "-1"
  | pgsql | oracle | mssql => none

/-- The rows are limited by `OFFSET … ROWS FETCH NEXT … ROWS ONLY`. -/
def fetchesRows : Dialect → Bool
  | oracle | mssql => true
  | mysql | pgsql | sqlite => false

/-- The end of a statement that limits its rows; empty when nothing is limited. -/
def limitClause (d : Dialect) (limit offset : Option Nat) : String :=
  if d.fetchesRows then
    match limit, offset with
    | some n, o => s!"OFFSET {o.getD 0} ROWS FETCH NEXT {n} ROWS ONLY"
    | none, some o => s!"OFFSET {o} ROWS"
    | none, none => ""
  else
    match limit, offset with
    | some n, some o => s!"LIMIT {n} OFFSET {o}"
    | some n, none => s!"LIMIT {n}"
    | none, some o =>
      match d.unlimited with
      | some n => s!"LIMIT {n} OFFSET {o}"
      | none => s!"OFFSET {o}"
    | none, none => ""

/-- A limit over joins that repeat the roots has to be applied to the roots in a subquery. -/
def needsLimitSubquery : Dialect → Bool
  | mysql | pgsql | sqlite | oracle | mssql => true

/-- A limited subquery after `IN` has to be wrapped in a derived table. -/
def wrapsLimitSubquery : Dialect → Bool
  | mysql => true
  | pgsql | sqlite | oracle | mssql => false

/-- Rows can be skipped only in an ordered statement. -/
def ordersBeforeOffset : Dialect → Bool
  | mssql => true
  | mysql | pgsql | sqlite | oracle => false

end Dialect
end ObjectQuery
