import ObjectQuery.Plan.Query
import ObjectQuery.Sql.Statement

/-! # Statements of resolved queries

Aliases become names, pieces become terms, and join nodes become joins.

* `Expr.terms`: an expression;
* `Subquery.toSelect`: a query inside an expression;
* `ClauseSet.inlined`: clauses that no longer refer to the select list;
* `QueryPlan.toSelect`: the statement that all statements of a plan are made from. -/

namespace ObjectQuery

/-- The test for the rows of the root component in a shared table. -/
def TableUse.rootTest (names : AliasNames) (use : TableUse) : List Sql.Conjunct :=
  use.component.inheritance.toList.map fun d =>
    ⟨[.equals (names.get use.id) d.column d.value], true⟩

/-- The table of a root. -/
def TableUse.rootTable (names : AliasNames) (use : TableUse) : Sql.Source :=
  .table use.component.table (names.get use.id)

/-- The joins of a list in the given order of aliases, the root left out. -/
def arrangeJoins (root : AliasId) (joins : List (AliasId × Sql.Join)) (emitted : List AliasId) :
    List Sql.Join :=
  (emitted.filter (· != root)).filterMap fun id => (joins.find? (·.1 == id)).map (·.2)

mutual

/-- The term for a piece. -/
def Piece.term (names : AliasNames) : Piece → Sql.Term
  | .text t => .raw t
  | .column id column => .column (names.get id) column
  | .output owner ordinal => .output (expressionOutput names owner ordinal)
  | .placeholder ordinal => .param ordinal
  | .subquery q => .select (q.toSelect names)
  | .discriminator id test => .equals (names.get id) test.column test.value

/-- The terms for pieces that follow one another. -/
def Piece.termsAll (names : AliasNames) : List Piece → List Sql.Term
  | [] => []
  | p :: ps => p.term names :: Piece.termsAll names ps

/-- The terms for an expression. -/
def Expr.terms (names : AliasNames) : Expr → List Sql.Term
  | ⟨pieces, _⟩ => Piece.termsAll names pieces

/-- The terms for an expression that may be missing. -/
def Expr.termsOption (names : AliasNames) : Option Expr → Option (List Sql.Term)
  | none => none
  | some e => some (e.terms names)

/-- The terms for each of several expressions. -/
def Expr.termsEach (names : AliasNames) : List Expr → List (List Sql.Term)
  | [] => []
  | e :: es => e.terms names :: Expr.termsEach names es

/-- The conjuncts that the structural predicate, which is written `structural`, and a condition
make together. -/
def JoinCondition.conjuncts (names : AliasNames) (structural : List Sql.Conjunct) :
    Option JoinCondition → List Sql.Conjunct
  | none => structural
  | some ⟨.replacing, e⟩ => [⟨e.terms names, true⟩]
  | some ⟨.extending, e⟩ => structural ++ [⟨e.terms names, true⟩]

/-- The join for a node. -/
def JoinNode.join (names : AliasNames) : JoinNode → Sql.Join
  | ⟨use, structural, condition, extra⟩ =>
    let structural := (Expr.termsOption names structural).toList.map fun t => ⟨t, false⟩
    ⟨use.kind, use.component.table, names.get use.id,
      JoinCondition.conjuncts names structural condition ++
        (Expr.termsEach names extra).map fun t => ⟨t, false⟩⟩

/-- The joins for nodes, each with its alias. -/
def JoinNode.joins (names : AliasNames) : List JoinNode → List (AliasId × Sql.Join)
  | [] => []
  | n :: ns => (n.id, n.join names) :: JoinNode.joins names ns

/-- The joins of a graph in the given order. -/
def JoinGraph.sqlJoins (names : AliasNames) (emitted : List AliasId) : JoinGraph → List Sql.Join
  | ⟨root, joins⟩ => arrangeJoins root.id (JoinNode.joins names joins) emitted

/-- The items of a select list. A column is named when the rows are to be hydrated. -/
def SelectItem.items (names : AliasNames) (hydrated : Bool) : List SelectItem → List Sql.Item
  | [] => []
  | .field f :: rest =>
    ⟨[.column (names.get f.owner) f.column], if hydrated then some f.output else none⟩ ::
      SelectItem.items names hydrated rest
  | .expression owner ordinal e _ :: rest =>
    ⟨e.terms names, some (expressionOutput names owner ordinal)⟩ ::
      SelectItem.items names hydrated rest

/-- The items of an `ORDER BY` list. -/
def OrderTerm.orders (names : AliasNames) : List OrderTerm → List Sql.Order
  | [] => []
  | ⟨e, direction, _⟩ :: rest => ⟨e.terms names, direction⟩ :: OrderTerm.orders names rest

/-- The statement with the given clauses over a source and joins; `tests` are demanded besides the
condition of the query. -/
def ClauseSet.toSelect (names : AliasNames) (hydrated : Bool) (source : Sql.Source)
    (joins : List Sql.Join) (tests : List Sql.Conjunct) : ClauseSet → Sql.Select
  | ⟨distinct, select, filter, groupBy, having, orderBy, limit, offset⟩ =>
    ⟨distinct, SelectItem.items names hydrated select, source, joins,
      (Expr.termsOption names filter).toList.map (fun t => ⟨t, true⟩) ++ tests,
      Expr.termsEach names groupBy, Expr.termsOption names having, OrderTerm.orders names orderBy,
      limit, offset⟩

/-- The statement for a query inside an expression. -/
def Subquery.toSelect (names : AliasNames) : Subquery → Sql.Select
  | ⟨graph, clauses, emitted⟩ =>
    clauses.toSelect names false (graph.root.rootTable names) (graph.sqlJoins names emitted)
      (graph.root.rootTest names)

end

/-! ## References to the select list -/

/-- Pieces with the references to select expressions replaced by the expressions, along chains of
`fuel` references at most. -/
def inlinePieces (c : ClauseSet) : Nat → List Piece → List Piece
  | 0, pieces => pieces
  | fuel + 1, pieces => pieces.flatMap fun
    | .output owner ordinal =>
      match c.expression? owner ordinal with
      | some (.expression _ _ e _) => inlinePieces c fuel e.pieces
      | _ => [.output owner ordinal]
    | piece => [piece]

/-- An expression with the references to select expressions replaced by the expressions. -/
def Expr.inlined (c : ClauseSet) (e : Expr) : Expr :=
  { e with pieces := inlinePieces c c.select.length e.pieces }

/-! ## Statements of a plan -/

namespace QueryPlan

/-- The statement with the clauses of the plan over its joins, under the given names. -/
def toSelect (p : QueryPlan) (names : AliasNames) (clauses : ClauseSet) : Sql.Select :=
  clauses.toSelect names true (p.graph.root.rootTable names)
    (p.graph.sqlJoins names p.emitted) (p.graph.root.rootTest names)

/-- The physical names of the primary key of the root. -/
def rootKeys (p : QueryPlan) : List String := p.graph.root.component.keyNames

end QueryPlan

/-- The items for key columns of a table. A component without a primary key has one item without
terms. -/
def keyItems (qualifier : String) (keys : List String) : List Sql.Item :=
  match keys with
  | [] => [⟨[], none⟩]
  | keys => keys.map fun key => ⟨[.column qualifier key], none⟩

end ObjectQuery
