import ObjectQuery.Sql.Lowering

/-! # Counting the results of a query

The count of a query is the number of its groups or, without groups, of its roots; order and limit
have no part in it.

* `QueryPlan.countStatement`: the statement that counts. -/

namespace ObjectQuery

/-- The select expressions that the condition on groups refers to, each once. -/
def ClauseSet.havingOutputs (c : ClauseSet) : List SelectItem :=
  (c.having.toList.flatMap (·.outputs)).eraseDups.filterMap fun r => c.expression? r.1 r.2

namespace QueryPlan

/-- The name of the derived table that is counted. -/
def countTable : String := "count_query"

/-- The name of the derived table around it. -/
def countWrapTable : String := "count_query_wrap"

/-- The columns that the condition on groups reads, each once, except the key of the root. -/
def havingColumns (p : QueryPlan) : List (AliasId × String) :=
  ((p.clauses.having.toList.flatMap (·.columns)).filter fun c =>
    !(c.1 == p.graph.root.id && p.rootKeys.contains c.2)).eraseDups

/-- The name of a grouping expression: that of its column, or its position. -/
def groupName (names : AliasNames) (position : Nat) (e : Expr) : String :=
  match e.asColumn? with
  | some (id, column) => names.get id ++ "__" ++ column
  | none => "group__" ++ toString position

/-- The grouping expressions under names of their own. -/
def groupItems (names : AliasNames) (groupBy : List Expr) : List Sql.Item :=
  groupBy.zipIdx.map fun g => ⟨g.1.terms names, some (groupName names g.2 g.1)⟩

/-- The joins and conditions of a plan with a select list of its own, without order and limit. -/
def countBody (p : QueryPlan) (distinct : Bool) (items : List Sql.Item) : Sql.Select :=
  { p.toSelect p.aliases p.clauses with
    distinct := distinct
    items := items
    orderBy := []
    limit := none
    offset := none }

/-- The statement that selects from a derived table and nothing else. -/
def selectFrom (distinct : Bool) (items : List Sql.Item) (query : Sql.Select) (name : String) :
    Sql.Select where
  distinct := distinct
  items := items
  source := .derived query name false
  joins := []
  filter := []
  groupBy := []
  having := none
  orderBy := []
  limit := none
  offset := none

/-- The statement that counts the results of a plan. -/
def countStatement (p : QueryPlan) (countAlias : String) : Sql.Select :=
  let c := p.clauses
  let count : List Sql.Item := [⟨[.raw "COUNT(*)".toList], some countAlias⟩]
  let keys := keyItems (p.aliases.get p.graph.root.id) p.rootKeys
  let outputs := SelectItem.items p.aliases true c.havingOutputs
  if !c.groupBy.isEmpty then
    let groups := p.countBody false (groupItems p.aliases c.groupBy ++ outputs)
    selectFrom false count groups countTable
  else if c.having.isSome then
    let columns : List Sql.Item := p.havingColumns.map fun r =>
      ⟨[.column (p.aliases.get r.1) r.2], none⟩
    let rows := p.countBody false (keys ++ outputs ++ columns)
    selectFrom false count
      (selectFrom true (keyItems countTable p.rootKeys) rows countTable) countWrapTable
  else if c.distinct || p.hasFanOut then
    selectFrom false count (p.countBody true keys) countTable
  else p.countBody false count

end QueryPlan
end ObjectQuery
