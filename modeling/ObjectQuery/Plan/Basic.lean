import ObjectQuery.Alias.Resolver
import ObjectQuery.Query.Basic
import ObjectQuery.Schema.Basic

/-! # Resolved queries

What a query means once its aliases and fields are resolved: expressions made of pieces, a graph of
joins, and the clauses over it. A subquery is such a query inside an expression, so the types are
mutually recursive.

* `Piece`, `Expr`: expressions;
* `JoinNode`, `JoinGraph`: joins;
* `SelectItem`, `OrderTerm`, `ClauseSet`: clauses;
* `Subquery`: a query nested in an expression. -/

namespace ObjectQuery

/-- What a join node is for. -/
inductive NodeRole
  /-- The component the query starts from. -/
  | root
  /-- The association table of a many-to-many relation; its rows are no records of the result. -/
  | bridge
  /-- The component a relation leads to. -/
  | target
deriving DecidableEq, Repr

/-- An occurrence of a component in a `FROM` clause. -/
structure TableUse where
  /-- Its number among the occurrences of tables. -/
  id : AliasId
  /-- The alias that the query refers to it by. -/
  userAlias : Option String
  component : Component
  role : NodeRole
  /-- The occurrence it is joined to. -/
  parent : Option AliasId
  /-- The occurrence whose records hold its records; the parent, except behind a bridge. -/
  source : Option AliasId
  /-- The relation it is reached by. -/
  relation : Option Relation
  kind : JoinKind
  /-- The physical column that keys the collection of its records. -/
  indexBy : Option String
deriving DecidableEq, Repr

/-- A column in a select list. -/
structure SelectedField where
  /-- The alias whose records hold the column. -/
  owner : AliasId
  /-- The physical name. -/
  column : String
  /-- The field of the record that takes the value. -/
  field : String
  /-- The name of the result column. -/
  output : String
  /-- Added for the result to be complete, not asked for. -/
  implicit : Bool
deriving DecidableEq, Repr

mutual

/-- A piece of an expression. -/
inductive Piece
  /-- Text that is taken over as it stands. -/
  | text (t : Text)
  | column (id : AliasId) (column : String)
  /-- The select expression with the given owner and ordinal. -/
  | output (owner : AliasId) (ordinal : Nat)
  /-- A value bound by the caller. -/
  | placeholder (ordinal : Nat)
  | subquery (query : Subquery)
  /-- The test for the rows of one component in a shared table. -/
  | discriminator (id : AliasId) (test : Discriminator)

/-- An expression. -/
structure Expr where
  pieces : List Piece
  /-- It calls an aggregate function. -/
  aggregate : Bool

/-- A condition that the query adds to a join. -/
structure JoinCondition where
  kind : ConditionKind
  expr : Expr

/-- A node of a join graph: a table and the predicates it is joined on. -/
structure JoinNode extends TableUse where
  /-- What the relation demands. -/
  structural : Option Expr
  /-- What the query demands. -/
  condition : Option JoinCondition
  /-- What is demanded in any case: no row is its own partner, and the rows are of the right
  component. -/
  extra : List Expr

/-- The joins of one query in the order they are declared; the root comes first. -/
structure JoinGraph where
  root : JoinNode
  joins : List JoinNode

/-- An item of a select list. -/
inductive SelectItem
  | field (f : SelectedField)
  /-- The expressions of a select list are numbered; an expression belongs to the records of its
  owner, under its own name if it has one. -/
  | expression (owner : AliasId) (ordinal : Nat) (expr : Expr) (name : Option String)

/-- An item of an `ORDER BY` list. -/
structure OrderTerm where
  expr : Expr
  /-- The words after the expression. -/
  direction : Option String
  /-- A default ordering of the schema. -/
  implicit : Bool

/-- The clauses of a query. -/
structure ClauseSet where
  distinct : Bool
  select : List SelectItem
  filter : Option Expr
  groupBy : List Expr
  having : Option Expr
  orderBy : List OrderTerm
  limit : Option Nat
  offset : Option Nat

/-- A query inside an expression. -/
structure Subquery where
  graph : JoinGraph
  clauses : ClauseSet
  /-- The joins in the order they are written. -/
  emitted : List AliasId

end

/-! ## Expressions -/

/-- Pieces in canonical form: no empty text, and no two texts side by side. -/
def canonicalPieces : List Piece → List Piece
  | [] => []
  | .text t :: rest =>
    match canonicalPieces rest with
    | .text u :: rest => .text (t ++ u) :: rest
    | rest => if t.isEmpty then rest else .text t :: rest
  | piece :: rest => piece :: canonicalPieces rest

namespace Expr

/-- The expression made of the given pieces. -/
def ofPieces (pieces : List Piece) (aggregate : Bool) : Expr :=
  ⟨canonicalPieces pieces, aggregate⟩

/-- An expression that calls no aggregate function. -/
def plain (pieces : List Piece) : Expr := ofPieces pieces false

/-- The test for the rows of one component. -/
def discriminator (id : AliasId) (test : Discriminator) : Expr :=
  plain [.discriminator id test]

/-- The column that the expression consists of. -/
def asColumn? (e : Expr) : Option (AliasId × String) :=
  match e.pieces with
  | [.column id column] => some (id, column)
  | _ => none

/-- The columns that stand directly in the expression, in order. -/
def columns (e : Expr) : List (AliasId × String) :=
  e.pieces.filterMap fun
    | .column id column => some (id, column)
    | _ => none

/-- The select expressions that the expression refers to, in order. -/
def outputs (e : Expr) : List (AliasId × Nat) :=
  e.pieces.filterMap fun
    | .output owner ordinal => some (owner, ordinal)
    | _ => none

end Expr

/-! ## Joins -/

namespace TableUse

/-- The alias that the query refers to the table by: the name of its component unless it gives
one. -/
def effectiveAlias (t : TableUse) : String := t.userAlias.getD t.component.name

/-- One row on the near side may find several rows of this table. -/
def isFanOut (t : TableUse) : Bool := t.relation.any (·.kind.toMany)

end TableUse

namespace JoinNode

/-- The conjuncts of the `ON` clause in the order they are written, each with whether it needs
parentheses. -/
def predicates (n : JoinNode) : List (Expr × Bool) :=
  let structural := n.structural.toList.map fun e => (e, false)
  let required := match n.condition with
    | none => structural
    | some ⟨.replacing, e⟩ => [(e, true)]
    | some ⟨.extending, e⟩ => structural ++ [(e, true)]
  required ++ n.extra.map fun e => (e, false)

/-- The root of a query. -/
def ofRoot (id : AliasId) (userAlias : String) (component : Component)
    (indexBy : Option String) : JoinNode where
  id := id
  userAlias := some userAlias
  component := component
  role := .root
  parent := none
  source := none
  relation := none
  kind := .inner
  indexBy := indexBy
  structural := none
  condition := none
  extra := []

end JoinNode

namespace JoinGraph

/-- All nodes. -/
def nodes (g : JoinGraph) : List JoinNode := g.root :: g.joins

/-- The aliases of all nodes. -/
def aliases (g : JoinGraph) : List AliasId := g.nodes.map (·.id)

/-- The graph has a node with the given alias. -/
def contains (g : JoinGraph) (id : AliasId) : Bool := g.aliases.contains id

/-- The node with the given alias. -/
def node? (g : JoinGraph) (id : AliasId) : Option JoinNode :=
  g.nodes.find? (·.id == id)

/-- The graph with more nodes at its end. -/
def add (g : JoinGraph) (nodes : List JoinNode) : JoinGraph := { g with joins := g.joins ++ nodes }

/-- The graph with the first node of the given alias changed. -/
def update (g : JoinGraph) (id : AliasId) (f : JoinNode → JoinNode) : JoinGraph :=
  if g.root.id = id then { g with root := f g.root }
  else { g with joins := updateFirst g.joins }
where
  /-- Changes the first node of the given alias. -/
  updateFirst : List JoinNode → List JoinNode
    | [] => []
    | n :: ns => if n.id = id then f n :: ns else n :: updateFirst ns

/-- The graph with a condition at a join. -/
def attach (g : JoinGraph) (id : AliasId) (condition : JoinCondition) : JoinGraph :=
  g.update id fun n => { n with condition := some condition }

/-- The graph with the records of a node keyed by a column. -/
def indexBy (g : JoinGraph) (id : AliasId) (column : String) : JoinGraph :=
  g.update id fun n => { n with indexBy := some column }

end JoinGraph

/-! ## Clauses -/

namespace SelectItem

/-- The alias whose records hold the item. -/
def owner : SelectItem → AliasId
  | field f => f.owner
  | expression owner .. => owner

/-- The item is an expression with an aggregate function. -/
def isAggregate : SelectItem → Bool
  | field _ => false
  | expression _ _ e _ => e.aggregate

/-- The column that the item selects. -/
def field? : SelectItem → Option SelectedField
  | field f => some f
  | expression .. => none

/-- The item selects the given column. -/
def isField (id : AliasId) (column : String) (item : SelectItem) : Bool :=
  item.field?.any fun f => f.owner == id && f.column == column

/-- The item is the expression with the given owner and ordinal. -/
def isExpression (owner : AliasId) (ordinal : Nat) : SelectItem → Bool
  | field _ => false
  | expression o n _ _ => o == owner && n == ordinal

/-- A column in a select list, before the result columns are named. -/
def ofColumn (id : AliasId) (column : Column) (implicit : Bool) : SelectItem :=
  field ⟨id, column.name, column.fieldName, "", implicit⟩

end SelectItem

/-- The result column of a select expression. -/
def expressionOutput (names : AliasNames) (owner : AliasId) (ordinal : Nat) : String :=
  names.get owner ++ "__" ++ toString ordinal

/-- The result column of a select item. -/
def SelectItem.outputName (names : AliasNames) : SelectItem → String
  | field f => f.output
  | expression owner ordinal _ _ => expressionOutput names owner ordinal

namespace ClauseSet

/-- Some select expression calls an aggregate function. -/
def hasAggregates (c : ClauseSet) : Bool := c.select.any (·.isAggregate)

/-- The query limits its rows. -/
def isLimited (c : ClauseSet) : Bool := c.limit.isSome || c.offset.isSome

/-- The select list holds the given column. -/
def isSelected (c : ClauseSet) (id : AliasId) (column : String) : Bool :=
  c.select.any (·.isField id column)

/-- The select expression with the given owner and ordinal. -/
def expression? (c : ClauseSet) (owner : AliasId) (ordinal : Nat) : Option SelectItem :=
  c.select.find? (·.isExpression owner ordinal)

/-- The select expression with the given name; of several with one name the last counts. -/
def named? (c : ClauseSet) (name : String) : Option (AliasId × Nat) :=
  c.select.reverse.findSome? fun
    | .expression owner ordinal _ (some n) => if n == name then some (owner, ordinal) else none
    | _ => none

end ClauseSet
end ObjectQuery
