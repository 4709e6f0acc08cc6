import ObjectQuery.Plan.Basic

/-! # What expressions and joins read

`Expr.reads` is the set of aliases that an expression reads. A subquery reads, from the outside,
the aliases that its clauses and joins read and that it does not introduce itself.

* `Expr.reads`, `ClauseSet.reads`;
* `JoinNode.dependsOn`: the aliases that have to be joined before a node;
* `Subquery.outerReads`. -/

namespace ObjectQuery

mutual

/-- The aliases that a piece reads. -/
def Piece.reads : Piece → AliasSet
  | .text _ | .placeholder _ => ∅
  | .column id _ => AliasSet.ofList [id]
  | .output owner _ => AliasSet.ofList [owner]
  | .discriminator id _ => AliasSet.ofList [id]
  | .subquery q => q.outerReads

/-- The aliases that some of the pieces read. -/
def Piece.readsAll : List Piece → AliasSet
  | [] => ∅
  | p :: ps => p.reads ∪ Piece.readsAll ps

/-- The aliases that an expression reads. -/
def Expr.reads : Expr → AliasSet
  | ⟨pieces, _⟩ => Piece.readsAll pieces

/-- The aliases that an expression reads, if there is one. -/
def Expr.readsOption : Option Expr → AliasSet
  | none => ∅
  | some e => e.reads

/-- The aliases that some of the expressions read. -/
def Expr.readsAll : List Expr → AliasSet
  | [] => ∅
  | e :: es => e.reads ∪ Expr.readsAll es

/-- The aliases that a node is joined on: those of its predicates and its parent, itself left
out. -/
def JoinNode.dependsOn : JoinNode → AliasSet
  | ⟨use, structural, condition, extra⟩ =>
    let parent := AliasSet.ofList use.parent.toList
    (parent ∪ JoinCondition.readsWith (Expr.readsOption structural) condition ∪
      Expr.readsAll extra).erase use.id

/-- The aliases that the structural predicate, which reads `structural`, and a condition read
together. -/
def JoinCondition.readsWith (structural : AliasSet) : Option JoinCondition → AliasSet
  | none => structural
  | some ⟨.replacing, e⟩ => e.reads
  | some ⟨.extending, e⟩ => structural ∪ e.reads

/-- The aliases that some of the nodes are joined on. -/
def JoinNode.dependsOnAll : List JoinNode → AliasSet
  | [] => ∅
  | n :: ns => n.dependsOn ∪ JoinNode.dependsOnAll ns

/-- The aliases that the nodes of a graph are joined on. -/
def JoinGraph.dependsOn : JoinGraph → AliasSet
  | ⟨root, joins⟩ => root.dependsOn ∪ JoinNode.dependsOnAll joins

/-- The aliases that a select item reads; an item reads the alias whose records hold it. -/
def SelectItem.reads : SelectItem → AliasSet
  | .field f => AliasSet.ofList [f.owner]
  | .expression owner _ e _ => e.reads.insert owner

/-- The aliases that some of the select items read. -/
def SelectItem.readsAll : List SelectItem → AliasSet
  | [] => ∅
  | i :: is => i.reads ∪ SelectItem.readsAll is

/-- The aliases that some of the order terms read. -/
def OrderTerm.readsAll : List OrderTerm → AliasSet
  | [] => ∅
  | ⟨e, _, _⟩ :: ts => e.reads ∪ OrderTerm.readsAll ts

/-- The aliases that some clause reads. -/
def ClauseSet.reads : ClauseSet → AliasSet
  | ⟨_, select, filter, groupBy, having, orderBy, _, _⟩ =>
    SelectItem.readsAll select ∪ Expr.readsOption filter ∪ Expr.readsAll groupBy ∪
      Expr.readsOption having ∪ OrderTerm.readsAll orderBy

/-- The aliases of the queries around it that a subquery reads. -/
def Subquery.outerReads : Subquery → AliasSet
  | ⟨graph, clauses, _⟩ =>
    (clauses.reads ∪ graph.dependsOn).filter fun id => !graph.contains id

end

end ObjectQuery
