import ObjectQuery.Plan.Query
import ObjectQuery.Query.Parser
import ObjectQuery.Resolve.From
import ObjectQuery.Resolve.Ordering
import ObjectQuery.Resolve.Selection

/-! # Resolving queries

* `resolveSubquery`: a query inside an expression, to a given depth of nesting;
* `planQuery`: the plan of a whole query;
* `plan`: the plan of the text of a query. -/

namespace ObjectQuery

/-- Resolves the joins and the clauses of a query; `param` is the ordinal of its first
placeholder. -/
def resolveQuery (env : Surroundings) (subquery : ResolveSubquery) (param : Nat) (q : Query) :
    Resolve (JoinGraph × ClauseSet) := do
  let graph ← resolveFrom env subquery param q.source
  let clauses ← resolveClauses env subquery graph param q.toClauseTexts
  return (graph, clauses)

/-- A subquery without a select list yields the primary key of its root. -/
def selectKeys (graph : JoinGraph) (c : ClauseSet) : ClauseSet :=
  { c with
    select := graph.root.component.primaryKeys.map fun k => .ofColumn graph.root.id k false }

/-- Resolves a subquery that may nest further subqueries `levels - 1` deep. -/
def resolveSubquery (env : Surroundings) : (levels : Nat) → ResolveSubquery
  | 0 => fun _ _ clause =>
    Resolve.malformed clause (.nestedTooDeep env.config.maxSubqueryDepth)
  | levels + 1 => fun text param _ => do
    let q ← ExceptT.mk (pure (Query.parse env.config.scanner text))
    let (graph, clauses) ← Resolve.inScope
      (resolveQuery env (resolveSubquery env levels) param q)
    let clauses := if q.select.isNone then selectKeys graph clauses else clauses
    let clauses := nameOutputs (← get).resolver.names clauses
    return ⟨graph, clauses, graph.emissionOrder (AliasSet.ofList graph.aliases)⟩

/-- The joins of a query that are written, in order. -/
def emittedAliases (config : Config) (graph : JoinGraph) (c : ClauseSet) : List AliasId :=
  graph.emissionOrder <|
    if config.pruneJoins then graph.retained c.reads else AliasSet.ofList graph.aliases

/-- The plan of a query. -/
def planQuery (env : Surroundings) (q : Query) : Resolve QueryPlan := do
  let subquery := resolveSubquery env env.config.maxSubqueryDepth
  let (graph, clauses) ← resolveQuery env subquery 0 q
  let emitted := emittedAliases env.config graph clauses
  let clauses ← appendDefaultOrdering env subquery graph emitted clauses
  let resolver := (← get).resolver
  let clauses := nameOutputs resolver.names (completeSelection graph emitted clauses)
  let fanOut := (emitted.filterMap graph.node?).any (·.isFanOut)
  let shadow := if fanOut && clauses.isLimited then some (resolver.shadow emitted).1 else none
  return ⟨resolver.names, shadow, graph, clauses, emitted, q.placeholders⟩

/-- The plan of the text of a query. -/
def plan (env : Surroundings) (text : Text) : Except QueryError QueryPlan := do
  let q ← Query.parse env.config.scanner text
  ((planQuery env q).run {}).1

end ObjectQuery
