import ObjectQuery.Plan.Query
import ObjectQuery.Sql.Lowering

/-! # Hydration plans

A hydration plan says which result columns make up which record, and which records hold which
others. Its nodes are listed with the root first and every node after the one that holds its
records.

* `HydrationNode`, `HydrationPlan`;
* `HydrationPlan.ofQueryPlan`: the plan that fits the select list of a query. -/

namespace ObjectQuery

/-- A value of a record, and the result column it is read from. -/
structure FieldBinding where
  key : String
  output : String
deriving DecidableEq, Repr

/-- The records of one alias. -/
structure HydrationNode where
  /-- The alias of the query. -/
  userAlias : String
  /-- The alias in SQL. -/
  sqlAlias : String
  component : String
  /-- The position of the node whose records hold these. -/
  parent : Option Nat
  /-- The relation under which they are held. -/
  relation : Option String
  kind : Option RelationKind
  /-- The values that tell records apart. Without any, every row makes a new record. -/
  identifier : List FieldBinding
  fields : List FieldBinding
  aggregates : List FieldBinding
  /-- The result column that keys the collection of the records. -/
  indexBy : Option String
  /-- The positions of the nodes whose records these hold. -/
  children : List Nat
deriving DecidableEq, Repr

namespace HydrationNode

/-- A record may hold several of these records. -/
def isCollection (n : HydrationNode) : Bool := n.kind.any (·.toMany)

/-- The name under which a record holds these records. -/
def slotName (n : HydrationNode) : String := n.relation.getD n.userAlias

/-- All values of a record, in the order in which they are read. -/
def bindings (n : HydrationNode) : List FieldBinding := n.fields ++ n.aggregates

end HydrationNode

/-- The nodes of a hydration, the root first. -/
structure HydrationPlan where
  nodes : List HydrationNode
deriving DecidableEq, Repr

namespace HydrationPlan

/-- The root. -/
def root? (p : HydrationPlan) : Option HydrationNode := p.nodes.head?

/-- The node of an alias. -/
def node? (p : HydrationPlan) (userAlias : String) : Option HydrationNode :=
  p.nodes.find? (·.userAlias == userAlias)

/-! ## The plan of a query -/

/-- The columns that a select list holds of an alias; of several columns with one field the first
counts. -/
def selectedFields (select : List SelectItem) (id : AliasId) : List SelectedField :=
  ((select.filterMap (·.field?)).filter (·.owner == id)).foldl
    (fun fields f => if fields.any (·.field == f.field) then fields else fields ++ [f]) []

/-- Records are made for the alias: it is no bridge, and it is the root or a column of it is
selected. -/
def isHydrated (p : QueryPlan) (n : JoinNode) : Bool :=
  n.role != .bridge && (n.id == p.graph.root.id ||
    (p.clauses.select.filterMap (·.field?)).any (·.owner == n.id))

/-- The joins for whose aliases records are made. -/
def hydratedNodes (p : QueryPlan) : List JoinNode := p.emittedNodes.filter (isHydrated p)

/-- The expressions that a select list holds of an alias. -/
def aggregateBinding (names : AliasNames) : SelectItem → Option (AliasId × FieldBinding)
  | .field _ => none
  | .expression owner ordinal _ name =>
    let output := expressionOutput names owner ordinal
    some (owner, ⟨name.getD output, output⟩)

/-- The node for a join; `earlier` are the aliases of the nodes before it. The identifier is there
only when the primary key is selected as a whole. -/
def nodeOf (p : QueryPlan) (earlier : List AliasId) (n : JoinNode) : HydrationNode :=
  let fields := selectedFields p.clauses.select n.id
  let binding (f : SelectedField) : FieldBinding := ⟨f.field, f.output⟩
  let keys := fields.filter fun f => n.component.isKey f.column
  { userAlias := n.effectiveAlias
    sqlAlias := p.aliases.get n.id
    component := n.component.name
    parent := (p.graph.ancestors n.id).findSome? earlier.idxOf?
    relation := n.relation.map (·.name)
    kind := n.relation.map (·.kind)
    identifier :=
      if keys.length = n.component.primaryKeys.length then keys.map binding else []
    fields := fields.map binding
    aggregates := []
    indexBy := (fields.filter fun f => n.indexBy == some f.column).getLast?.map (·.output)
    children := [] }

/-- The nodes for joins, after those for the aliases `earlier`. -/
def nodesFrom (p : QueryPlan) : List AliasId → List JoinNode → List HydrationNode
  | _, [] => []
  | earlier, n :: ns => nodeOf p earlier n :: nodesFrom p (earlier ++ [n.id]) ns

/-- The node at position `i` with its children, and with the expressions of its alias; the
expressions of aliases without a node belong to the root. -/
def completeNode (aliases : List AliasId) (nodes : List HydrationNode)
    (expressions : List (AliasId × FieldBinding)) (n : HydrationNode) (i : Nat) : HydrationNode :=
  { n with
    aggregates := (expressions.filter fun e => (aliases.idxOf? e.1).getD 0 == i).map (·.2)
    children := (nodes.zipIdx.filter fun c => c.1.parent == some i).map (·.2) }

/-- The hydration plan of a query. -/
def ofQueryPlan (p : QueryPlan) : HydrationPlan :=
  let joins := hydratedNodes p
  let aliases := joins.map (·.id)
  let nodes := nodesFrom p [] joins
  let expressions := p.clauses.select.filterMap (aggregateBinding p.aliases)
  ⟨nodes.zipIdx.map fun n => completeNode aliases nodes expressions n.1 n.2⟩

end HydrationPlan
end ObjectQuery
