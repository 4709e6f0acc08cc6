import ObjectQuery.Plan.Equality
import ObjectQuery.Sql.Dialect
import ObjectQuery.Sql.Lowering

/-! # Limiting the roots of a query

When joins repeat the roots, a limit must not count rows. The limit is applied to the distinct
keys of the roots in a subquery that repeats the joins under names of their own, and the outer
statement keeps the rows whose root is among them.

* `QueryPlan.usesLimitSubquery`: when this is done;
* `QueryPlan.rootSelect`: the keys of the roots, ordered as the query asks;
* `QueryPlan.limitedKeys`: the same, limited;
* `QueryPlan.selectStatement`: the statement of a plan. -/

namespace ObjectQuery
namespace QueryPlan

/-- The name of the derived table that the keys are projected out of. -/
def limitTable : String := "limit_subquery"

/-- The name of the derived table around a limited subquery. -/
def limitWrapTable : String := "limit_subquery_wrap"

/-- The limit applies to roots. A query with groups or aggregates has one row per group, so its
limit counts rows. -/
def usesLimitSubquery (p : QueryPlan) (d : Dialect) : Bool :=
  p.shadowAliases.isSome && d.needsLimitSubquery && p.clauses.groupBy.isEmpty &&
    !p.clauses.hasAggregates

/-- The order terms that the query asks for; a default ordering does not decide which roots are
kept. -/
def explicitOrder (p : QueryPlan) : List OrderTerm := p.clauses.orderBy.filter (!·.implicit)

/-- The query asks for an order by something other than the root. -/
def ordersByJoin (p : QueryPlan) : Bool :=
  p.explicitOrder.any fun t => t.expr.reads.toList.any (· != p.graph.root.id)

/-- The expression is a column of the key of the root. -/
def isRootKey (p : QueryPlan) (e : Expr) : Bool :=
  e.asColumn?.any fun c => c.1 == p.graph.root.id && p.rootKeys.contains c.2

/-- The expressions of order terms that are no column of the key of the root, each once. -/
def orderOutputs (p : QueryPlan) : List Expr :=
  (p.explicitOrder.map (·.expr)).foldl
    (fun outputs e => if p.isRootKey e || outputs.any (fun o => o = e) then outputs
      else outputs ++ [e]) []

/-- The statement that lists the keys of the roots, unlimited, in the order that the query asks
for. What the distinct rows are ordered by has to be selected with them. -/
def rootSelect (p : QueryPlan) (names : AliasNames) : Sql.Select :=
  let c := p.clauses
  let outputs := if p.ordersByJoin then [] else p.orderOutputs
  let inlined (e : Expr) : Expr := e.inlined c
  let clauses : ClauseSet := {
    distinct := !p.ordersByJoin
    select := []
    filter := c.filter
    groupBy := c.groupBy.map inlined
    having := c.having.map inlined
    orderBy := p.explicitOrder.map fun t => { t with expr := inlined t.expr }
    limit := none
    offset := none }
  { p.toSelect names clauses with
    items := keyItems (names.get p.graph.root.id) p.rootKeys ++
      (Expr.termsEach names (outputs.map inlined)).map fun t => ⟨t, none⟩ }

/-- The statement that selects key columns of a derived table. -/
def projectKeys (keys : List String) (distinct : Bool) (query : Sql.Select) (name : String)
    (spelled : Bool) : Sql.Select where
  distinct := distinct
  items := keyItems name keys
  source := .derived query name spelled
  joins := []
  filter := []
  groupBy := []
  having := none
  orderBy := []
  limit := none
  offset := none

/-- The statement that lists the keys of the roots within the limit. -/
def limitedKeys (p : QueryPlan) (d : Dialect) : Sql.Select :=
  let roots := p.rootSelect (p.shadowAliases.getD p.aliases)
  let limited (s : Sql.Select) : Sql.Select :=
    { s with limit := p.clauses.limit, offset := p.clauses.offset }
  let wrapped (s : Sql.Select) : Sql.Select :=
    if d.wrapsLimitSubquery then projectKeys p.rootKeys false s limitWrapTable true else s
  if p.ordersByJoin then wrapped (limited (projectKeys p.rootKeys true roots limitTable false))
  else if !p.orderOutputs.isEmpty then projectKeys p.rootKeys false (limited roots) limitTable false
  else wrapped (limited roots)

/-- The key of the root is among those that a statement lists. -/
def rootAmong (p : QueryPlan) (keys : Sql.Select) : Sql.Conjunct :=
  let columns := Sql.separateTerms ", " <|
    p.rootKeys.map fun key => [.column (p.aliases.get p.graph.root.id) key]
  let tuple :=
    if 1 < p.rootKeys.length then .raw ['('] :: columns ++ [.raw [')']] else columns
  ⟨tuple ++ [.raw " IN (".toList, .select keys, .raw [')']], false⟩

/-- The statement of a plan. -/
def selectStatement (p : QueryPlan) (d : Dialect) : Sql.Select :=
  let full := p.toSelect p.aliases p.clauses
  if p.usesLimitSubquery d then
    { full with
      filter := p.rootAmong (p.limitedKeys d) :: full.filter
      limit := none
      offset := none }
  else full

end QueryPlan
end ObjectQuery
