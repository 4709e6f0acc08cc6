import ObjectQuery.Query.Clause
import ObjectQuery.Text.Blank

/-! # Queries

A query cut into its clauses. Expressions stay text until they are resolved against a schema;
each piece of text knows the ordinal of its first placeholder. -/

namespace ObjectQuery

/-- The text of a clause or condition. -/
structure Segment where
  /-- The text without the blanks around it. -/
  text : Text
  /-- How many placeholders of the query stand before the text. -/
  firstParam : Nat
deriving DecidableEq, Repr

/-- Whether a join drops the rows that find no partner. -/
inductive JoinKind
  | inner | left
deriving DecidableEq, Repr

/-- The words that introduce a join in SQL. -/
def JoinKind.keyword : JoinKind → String
  | inner => "INNER JOIN"
  | left => "LEFT JOIN"

/-- How a join condition relates to the predicate that the relation itself demands. -/
inductive ConditionKind
  /-- `ON`: the condition takes its place. -/
  | replacing
  /-- `WITH`: the condition is demanded as well. -/
  | extending
deriving DecidableEq, Repr

/-- A component named in a `FROM` clause. -/
structure Source where
  /-- The identifiers of the path. -/
  path : List String
  /-- The alias that the query gives. -/
  givenAlias : Option String
  /-- The column after `INDEXBY`, as written. -/
  indexBy : Option Text
deriving DecidableEq, Repr

/-- The alias under which the query refers to the source: the last name of the path unless the
query gives one. -/
def Source.effectiveAlias (s : Source) : String := s.givenAlias.getD (s.path.getLastD "")

/-- A condition written at a join. -/
structure Condition where
  /-- How it relates to the predicate of the relation. -/
  kind : ConditionKind
  /-- Its text. -/
  segment : Segment
deriving DecidableEq, Repr

/-- A join of a `FROM` clause. -/
structure Joined where
  /-- Inner or left; a plain `JOIN` and a comma are left joins. -/
  kind : JoinKind
  /-- A path of an alias and at least one relation. -/
  source : Source
  /-- The condition, if one is written. -/
  condition : Option Condition
deriving DecidableEq, Repr

/-- A `FROM` clause: a root component and the joins in the order they are written. -/
structure FromList where
  root : Source
  joins : List Joined
deriving DecidableEq, Repr

/-- All clauses of a query other than `FROM`. -/
structure ClauseTexts where
  distinct : Bool := false
  select : Option Segment := none
  filter : Option Segment := none
  groupBy : Option Segment := none
  having : Option Segment := none
  orderBy : Option Segment := none
  limit : Option Nat := none
  offset : Option Nat := none
deriving DecidableEq, Repr

/-- A query. -/
structure Query extends ClauseTexts where
  source : FromList
  /-- The number of placeholders in the whole text. -/
  placeholders : Nat
deriving DecidableEq, Repr

/-- The aliases that the query declares, in the order of its `FROM` clause. -/
def FromList.aliases (f : FromList) : List String :=
  f.root.effectiveAlias :: f.joins.map (·.source.effectiveAlias)

end ObjectQuery
