import ObjectQuery.Plan.Equality
import ObjectQuery.Plan.Graph
import ObjectQuery.Resolve.Clauses

/-! # Default orderings

After its explicit order terms a query is ordered as the schema says: by the orderings of the
joins that are written, in order, and then by that of the root. A term that is there already is
not repeated.

* `defaultOrderings`: the orderings that apply, each with the alias it is about;
* `appendDefaultOrdering`: the clauses with the order terms for them. -/

namespace ObjectQuery

/-- The orderings that apply to a join: for a many-to-many relation that of its bridge, then that
of its target. The orderings of the relation take the place of those of the components. -/
def joinOrderings (graph : JoinGraph) (n : JoinNode) : List (AliasId × String) :=
  match n.role, n.relation with
  | .target, some r =>
    let bridge := match r.kind, n.parent.bind graph.node? with
      | .manyToMany, some b =>
        (r.bridgeOrderBy.or b.component.orderBy).toList.map fun o => (b.id, o)
      | _, _ => []
    bridge ++ (r.orderBy.or n.component.orderBy).toList.map fun o => (n.id, o)
  | _, _ => []

/-- The orderings that apply to a query. -/
def defaultOrderings (graph : JoinGraph) (emitted : List AliasId) : List (AliasId × String) :=
  (emitted.filterMap graph.node?).flatMap (joinOrderings graph) ++
    graph.root.component.orderBy.toList.map fun o => (graph.root.id, o)

/-- The order terms with those of an ordering about the given alias. -/
def appendOrdering (env : Surroundings) (subquery : ResolveSubquery) (terms : List OrderTerm)
    (id : AliasId) (ordering : Text) : Resolve (List OrderTerm) := do
  let scanner := env.config.scanner
  let items ← ExceptT.mk (pure (segmentItems scanner .orderBy 0 ⟨ordering, 0⟩))
  items.foldlM (fun terms item => do
    let bound ← Resolve.scanning .orderBy (scanner.placeholders item.text)
    if 0 < bound then Resolve.malformed .orderBy (.boundOrdering ordering)
    else
      let term ← resolveOrderItem env subquery { default := some id } true ⟨item.text, 0⟩
      if terms.any (fun t => t.expr = term.expr) then return terms else return terms ++ [term])
    terms

/-- The clauses with the default orderings after the explicit order terms. -/
def appendDefaultOrdering (env : Surroundings) (subquery : ResolveSubquery) (graph : JoinGraph)
    (emitted : List AliasId) (c : ClauseSet) : Resolve ClauseSet := do
  let terms ← (defaultOrderings graph emitted).foldlM
    (fun terms o => appendOrdering env subquery terms o.1 o.2.toList) c.orderBy
  return { c with orderBy := terms }

end ObjectQuery
