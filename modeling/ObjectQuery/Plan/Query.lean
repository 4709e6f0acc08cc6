import ObjectQuery.Plan.Graph

/-! # Query plans

A query that is resolved and complete, ready to be written as SQL and to be hydrated. -/

namespace ObjectQuery

/-- A resolved query. -/
structure QueryPlan where
  /-- The name of every occurrence of a table, those of subqueries included. -/
  aliases : AliasNames
  /-- The names under which the joins are written a second time, when the query limits its roots
  while some join may repeat them. -/
  shadowAliases : Option AliasNames
  graph : JoinGraph
  clauses : ClauseSet
  /-- The joins that are written, in order; the root comes first. -/
  emitted : List AliasId
  /-- The number of values to bind. -/
  placeholders : Nat

namespace QueryPlan

/-- The nodes that are written, in order. -/
def emittedNodes (p : QueryPlan) : List JoinNode := p.emitted.filterMap p.graph.node?

/-- Some join that is written may find several rows for one row before it. -/
def hasFanOut (p : QueryPlan) : Bool := p.emittedNodes.any (·.isFanOut)

end QueryPlan
end ObjectQuery
