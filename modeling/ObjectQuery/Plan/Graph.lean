import ObjectQuery.Plan.Reads

/-! # Order and pruning of joins

* `JoinGraph.ancestors`: the records that hold the records of a node;
* `JoinGraph.retained`: the joins that have to stay when only some aliases are read;
* `JoinGraph.emissionOrder`: the joins in an order in which each finds what it reads. -/

namespace ObjectQuery
namespace JoinGraph

/-- The aliases met on the way along `source`, `fuel` of them at most, up to one met before. -/
def ancestorsFrom (g : JoinGraph) : Nat → List AliasId → Option AliasId → List AliasId
  | 0, met, _ => met
  | _ + 1, met, none => met
  | fuel + 1, met, some id =>
    if met.contains id then met
    else ancestorsFrom g fuel (met ++ [id]) ((g.node? id).bind (·.source))

/-- The aliases whose records hold the records of a node, nearest first. -/
def ancestors (g : JoinGraph) (id : AliasId) : List AliasId :=
  g.ancestorsFrom (g.nodes.length + 1) [] ((g.node? id).bind (·.source))

/-- The aliases that a node of the graph is joined on, as far as the graph has them. -/
def innerDependencies (g : JoinGraph) (n : JoinNode) : AliasSet := n.dependsOn.filter g.contains

/-- One pass over the nodes that adds the dependencies of every node kept so far. -/
def grow (g : JoinGraph) (keep : AliasSet) : AliasSet :=
  g.nodes.foldl
    (fun keep n => if n.id ∈ keep then keep ∪ g.innerDependencies n else keep) keep

/-- Repeats `grow` until nothing is added, `fuel` times at most. -/
def close (g : JoinGraph) : Nat → AliasSet → AliasSet
  | 0, keep => keep
  | fuel + 1, keep =>
    let next := g.grow keep
    if next.size = keep.size then keep else close g fuel next

/-- A node that stays whether or not it is read: the root, and an inner join, which drops rows. -/
def isEssential (n : JoinNode) : Bool := n.role == .root || n.kind == .inner

/-- The aliases that have to stay when the clauses read only `referenced`. -/
def retained (g : JoinGraph) (referenced : AliasSet) : AliasSet :=
  let kept := g.nodes.filter fun n => isEssential n || decide (n.id ∈ referenced)
  g.close (g.nodes.length + 1) (AliasSet.ofList (kept.map (·.id)))

/-- Everything that a node waits for, among the aliases to keep, has been emitted. -/
def isReady (keep : AliasSet) (emitted : List AliasId) (n : JoinNode) : Bool :=
  n.dependsOn.toList.all fun d => emitted.contains d || !decide (d ∈ keep)

/-- The first node that is ready, and the other nodes. -/
def takeReady (keep : AliasSet) (emitted : List AliasId) :
    List JoinNode → Option (JoinNode × List JoinNode)
  | [] => none
  | n :: ns =>
    if isReady keep emitted n then some (n, ns)
    else (takeReady keep emitted ns).map fun r => (r.1, n :: r.2)

/-- Emits the pending nodes, always the first one that is ready, and the rest in the order they
are declared when none is; `fuel` is at least the number of pending nodes. -/
def emit (keep : AliasSet) : Nat → List AliasId → List JoinNode → List AliasId
  | 0, emitted, pending => emitted ++ pending.map (·.id)
  | fuel + 1, emitted, pending =>
    match takeReady keep emitted pending with
    | some (n, rest) => emit keep fuel (emitted ++ [n.id]) rest
    | none => emitted ++ pending.map (·.id)

/-- The aliases to keep, in the order they are declared, except that a node comes after the nodes
it reads. -/
def emissionOrder (g : JoinGraph) (keep : AliasSet) : List AliasId :=
  let pending := g.nodes.filter fun n => decide (n.id ∈ keep)
  emit keep pending.length [] pending

end JoinGraph
end ObjectQuery
