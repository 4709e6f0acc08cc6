/-! # Clauses

The parts of a query that a fragment of text or an error belongs to. -/

namespace ObjectQuery

/-- A clause of a query; `query` stands for the text as a whole. -/
inductive Clause
  | query | select | from | join | indexBy | where | groupBy | having | orderBy | limit | offset
deriving DecidableEq, Repr

/-- The name of a clause in error messages. -/
def Clause.name : Clause → String
  | query => "query"
  | select => "SELECT"
  | «from» => "FROM"
  | join => "JOIN"
  | indexBy => "INDEXBY"
  | «where» => "WHERE"
  | groupBy => "GROUP BY"
  | having => "HAVING"
  | orderBy => "ORDER BY"
  | limit => "LIMIT"
  | offset => "OFFSET"

end ObjectQuery
