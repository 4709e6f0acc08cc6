import ObjectQuery.Text.Blank
import ObjectQuery.Value.Basic

/-! # Building queries

A query put together clause by clause. Values are kept with the clauses whose placeholders they
belong to, so that they come in the order of the text.

* `QueryBuilder.toText`: the text of the query;
* `QueryBuilder.params`: the values of its placeholders. -/

namespace ObjectQuery

/-- The clauses of a query in the making. -/
structure QueryBuilder where
  distinct : Bool := false
  selectItems : List Text := []
  sources : List Text := []
  joins : List Text := []
  conditions : List Text := []
  groupItems : List Text := []
  groupConditions : List Text := []
  orderItems : List Text := []
  limitCount : Option Nat := none
  offsetCount : Option Nat := none
  filterParams : List Value := []
  havingParams : List Value := []

namespace QueryBuilder

/-- A query of one component under an alias. -/
def forComponent (component userAlias : Text) : QueryBuilder :=
  { sources := [component ++ ' ' :: userAlias] }

/-- Selects more. -/
def select (q : QueryBuilder) (items : Text) : QueryBuilder :=
  { q with selectItems := q.selectItems ++ [items] }

/-- Selects distinct rows. -/
def selectDistinct (q : QueryBuilder) : QueryBuilder := { q with distinct := true }

/-- Adds a component to the `FROM` clause. -/
def «from» (q : QueryBuilder) (component : Text) : QueryBuilder :=
  { q with sources := q.sources ++ [component] }

/-- Adds a left join. -/
def leftJoin (q : QueryBuilder) (join : Text) : QueryBuilder :=
  { q with joins := q.joins ++ ["LEFT JOIN ".toList ++ join] }

/-- Adds an inner join. -/
def innerJoin (q : QueryBuilder) (join : Text) : QueryBuilder :=
  { q with joins := q.joins ++ ["INNER JOIN ".toList ++ join] }

/-- Demands a condition in place of all conditions so far. -/
def «where» (q : QueryBuilder) (condition : Text) (params : List Value) : QueryBuilder :=
  { q with conditions := [condition], filterParams := params }

/-- Demands one more condition. -/
def andWhere (q : QueryBuilder) (condition : Text) (params : List Value) : QueryBuilder :=
  { q with conditions := q.conditions ++ [condition], filterParams := q.filterParams ++ params }

/-- Groups by more. -/
def groupBy (q : QueryBuilder) (items : Text) : QueryBuilder :=
  { q with groupItems := q.groupItems ++ [items] }

/-- Demands one more condition of the groups. -/
def having (q : QueryBuilder) (condition : Text) (params : List Value) : QueryBuilder :=
  { q with
    groupConditions := q.groupConditions ++ [condition]
    havingParams := q.havingParams ++ params }

/-- Orders by more. -/
def orderBy (q : QueryBuilder) (items : Text) : QueryBuilder :=
  { q with orderItems := q.orderItems ++ [items] }

/-- Limits the results. -/
def limit (q : QueryBuilder) (n : Nat) : QueryBuilder := { q with limitCount := some n }

/-- Skips results. -/
def offset (q : QueryBuilder) (n : Nat) : QueryBuilder := { q with offsetCount := some n }

/-- The values of the placeholders, in the order of the clauses. -/
def params (q : QueryBuilder) : List Value := q.filterParams ++ q.havingParams

/-- One condition as it is, several between parentheses and joined by `AND`. -/
def conjunction : List Text → Text
  | [condition] => condition
  | conditions => " AND ".toList.intercalate (conditions.map fun c => '(' :: c ++ [')'])

/-- A clause with its items; none when there are no items. -/
def listClause (keyword : String) (items : List Text) : List Text :=
  if items.isEmpty then [] else [keyword.toList ++ ", ".toList.intercalate items]

/-- A clause with its conditions; none when there are no conditions. -/
def conditionClause (keyword : String) (conditions : List Text) : List Text :=
  if conditions.isEmpty then [] else [keyword.toList ++ conjunction conditions]

/-- A clause with a number; none when there is no number. -/
def countClause (keyword : String) (n : Option Nat) : List Text :=
  n.toList.map fun n => keyword.toList ++ (toString n).toList

/-- The clauses of the query. -/
def clauses (q : QueryBuilder) : List Text :=
  listClause (if q.distinct then "SELECT DISTINCT " else "SELECT ") q.selectItems ++
    listClause "FROM " q.sources ++ q.joins ++ conditionClause "WHERE " q.conditions ++
    listClause "GROUP BY " q.groupItems ++ conditionClause "HAVING " q.groupConditions ++
    listClause "ORDER BY " q.orderItems ++ countClause "LIMIT " q.limitCount ++
    countClause "OFFSET " q.offsetCount

/-- The text of the query. -/
def toText (q : QueryBuilder) : Text := [' '].intercalate q.clauses

end QueryBuilder
end ObjectQuery
