import ObjectQuery.Text.Name

/-! # Words with a meaning of their own

The aggregate functions, and the words that are never taken for the name of a field. -/

namespace ObjectQuery

/-- The functions that make one value of many rows. -/
def aggregateFunctions : List String :=
  ["COUNT", "SUM", "AVG", "MIN", "MAX", "GROUP_CONCAT", "STRING_AGG", "ARRAY_AGG", "STDDEV",
   "VARIANCE", "BIT_AND", "BIT_OR"]

/-- The words that are never taken for the name of a field or an alias. -/
def reservedWords : List String :=
  ["AND", "OR", "NOT", "XOR", "IN", "IS", "NULL", "LIKE", "ILIKE", "BETWEEN", "EXISTS", "TRUE",
   "FALSE", "CASE", "WHEN", "THEN", "ELSE", "END", "AS", "ASC", "DESC", "DISTINCT", "ALL", "ANY",
   "SOME", "ESCAPE", "INTERVAL", "REGEXP", "SELECT", "FROM", "WHERE", "ON", "WITH", "JOIN", "LEFT",
   "INNER", "GROUP", "ORDER", "BY", "HAVING", "LIMIT", "OFFSET", "NULLS", "FIRST", "LAST",
   "MEMBER", "OF", "EMPTY", "SIZE"]

namespace Text

/-- The word is the name of an aggregate function. -/
def isAggregateFunction (word : Text) : Bool := aggregateFunctions.any word.isWord

/-- The word is never taken for the name of a field or an alias. -/
def isReserved (word : Text) : Bool := reservedWords.any word.isWord

end Text
end ObjectQuery
