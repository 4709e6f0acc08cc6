import ObjectQuery.Plan.Query
import ObjectQuery.Proofs.Plan.Reads
import ObjectQuery.Proofs.Plan.Soundness

/-! # How deep subqueries are nested

The depth of an expression is the greatest number of subqueries that stand in it one inside the
other. What the schema asks for holds no subqueries, so that the depth of a query is that of the
expressions its text is resolved to.

* `QueryPlan.depth`: the depth of a plan;
* `ClauseSet.depth_eq`, `JoinGraph.depth_eq`: clauses and joins by their expressions. -/

namespace ObjectQuery

mutual

/-- How deep subqueries are nested in a piece. -/
def Piece.depth : Piece → Nat
  | .text _ | .column .. | .output .. | .placeholder _ | .discriminator .. => 0
  | .subquery q => q.depth + 1

/-- The depth of the deepest of the pieces. -/
def Piece.depthAll : List Piece → Nat
  | [] => 0
  | p :: ps => max p.depth (Piece.depthAll ps)

/-- How deep subqueries are nested in an expression. -/
def Expr.depth : Expr → Nat
  | ⟨pieces, _⟩ => Piece.depthAll pieces

/-- The depth of an expression, if there is one. -/
def Expr.depthOption : Option Expr → Nat
  | none => 0
  | some e => e.depth

/-- The depth of the deepest of the expressions. -/
def Expr.depthAll : List Expr → Nat
  | [] => 0
  | e :: es => max e.depth (Expr.depthAll es)

/-- The depth of the condition of a join, if it has any. -/
def JoinCondition.depthOption : Option JoinCondition → Nat
  | none => 0
  | some ⟨_, e⟩ => e.depth

/-- How deep subqueries are nested in the predicates of a node. -/
def JoinNode.depth : JoinNode → Nat
  | ⟨_, structural, condition, extra⟩ =>
    max (max (Expr.depthOption structural) (JoinCondition.depthOption condition))
      (Expr.depthAll extra)

/-- The depth of the deepest of the nodes. -/
def JoinNode.depthAll : List JoinNode → Nat
  | [] => 0
  | n :: ns => max n.depth (JoinNode.depthAll ns)

/-- How deep subqueries are nested in the joins of a query. -/
def JoinGraph.depth : JoinGraph → Nat
  | ⟨root, joins⟩ => max root.depth (JoinNode.depthAll joins)

/-- How deep subqueries are nested in a select item. -/
def SelectItem.depth : SelectItem → Nat
  | .field _ => 0
  | .expression _ _ e _ => e.depth

/-- The depth of the deepest of the select items. -/
def SelectItem.depthAll : List SelectItem → Nat
  | [] => 0
  | i :: is => max i.depth (SelectItem.depthAll is)

/-- The depth of the deepest of the order terms. -/
def OrderTerm.depthAll : List OrderTerm → Nat
  | [] => 0
  | ⟨e, _, _⟩ :: ts => max e.depth (OrderTerm.depthAll ts)

/-- How deep subqueries are nested in the clauses of a query. -/
def ClauseSet.depth : ClauseSet → Nat
  | ⟨_, select, filter, groupBy, having, orderBy, _, _⟩ =>
    max (max (max (max (SelectItem.depthAll select) (Expr.depthOption filter))
      (Expr.depthAll groupBy)) (Expr.depthOption having)) (OrderTerm.depthAll orderBy)

/-- How deep subqueries are nested in a subquery. -/
def Subquery.depth : Subquery → Nat
  | ⟨graph, clauses, _⟩ => max graph.depth clauses.depth

end

/-- How deep subqueries are nested in a plan. -/
def QueryPlan.depth (p : QueryPlan) : Nat := max p.graph.depth p.clauses.depth

variable {env : Surroundings} {e : Expr} {es es' : List Expr} {ps qs : List Piece} {g : JoinGraph}

/-! ## Expressions -/

theorem Piece.depthAll_append :
    Piece.depthAll (ps ++ qs) = max (Piece.depthAll ps) (Piece.depthAll qs) := by
  induction ps with
  | nil => rw [List.nil_append, Piece.depthAll, Nat.zero_max]
  | cons p ps ih => rw [List.cons_append, Piece.depthAll, Piece.depthAll, ih, Nat.max_assoc]

/-- Putting pieces into canonical form does not change their depth. -/
theorem Expr.depth_ofPieces (ps : List Piece) (aggregate : Bool) :
    (Expr.ofPieces ps aggregate).depth = Piece.depthAll ps := by
  rw [Expr.ofPieces, Expr.depth]
  refine canonicalPieces_induction (R := fun ps qs => Piece.depthAll qs = Piece.depthAll ps) rfl
    ?_ ?_ ?_ ps
  · intro p ps qs ih
    rw [Piece.depthAll, Piece.depthAll, ih]
  · intro ps qs ih
    rw [Piece.depthAll, Piece.depth, Nat.zero_max, ih]
  · intro t u ps qs ih
    rw [Piece.depthAll, Piece.depth, Nat.zero_max] at ih ⊢
    rw [Piece.depthAll, Piece.depth, Nat.zero_max, ih]

theorem Generated.depth_eq_zero (h : Generated env ps) : Piece.depthAll ps = 0 := by
  induction h with
  | nil => rw [Piece.depthAll]
  | text _ _ ih | column _ _ ih | test _ _ _ ih =>
    rw [Piece.depthAll, Piece.depth, Nat.zero_max, ih]
  | group _ _ ihp ihq =>
    rw [List.cons_append, Piece.depthAll, Piece.depthAll_append, Piece.depthAll, Piece.depth,
      Piece.depth, ihp, ihq]
    rfl

/-- What the schema asks for holds no subqueries. -/
theorem Expr.Generated.depth_eq_zero (h : e.Generated env) : e.depth = 0 := by
  obtain ⟨ps, hps, he⟩ := h
  have : e = Expr.ofPieces ps e.aggregate := by
    cases e
    exact congrArg (Expr.mk · _) he
  rw [this, Expr.depth_ofPieces, hps.depth_eq_zero]

namespace Expr

@[simp] theorem depthAll_nil : depthAll [] = 0 := by rw [depthAll]

@[simp] theorem depthAll_cons : depthAll (e :: es) = max e.depth (depthAll es) := by rw [depthAll]

@[simp] theorem depthAll_append : depthAll (es ++ es') = max (depthAll es) (depthAll es') := by
  induction es with
  | nil => simp
  | cons e es ih => simp [ih, Nat.max_assoc]

theorem depth_le_depthAll (he : e ∈ es) : e.depth ≤ depthAll es := by
  induction es with
  | nil => cases he
  | cons e' es ih =>
    rw [depthAll_cons]
    rcases List.mem_cons.1 he with rfl | he
    · exact Nat.le_max_left _ _
    · exact (ih he).trans (Nat.le_max_right _ _)

theorem depthAll_eq_zero (h : ∀ e ∈ es, e.depth = 0) : depthAll es = 0 := by
  induction es with
  | nil => exact depthAll_nil
  | cons e es ih =>
    obtain ⟨he, hes⟩ := List.forall_mem_cons.1 h
    rw [depthAll_cons, he, ih hes, Nat.max_self]

theorem depthOption_eq (e? : Option Expr) : depthOption e? = depthAll e?.toList := by
  cases e? <;> simp [depthOption]

end Expr

/-! ## Clauses and joins -/

theorem SelectItem.depthAll_eq (items : List SelectItem) :
    depthAll items = Expr.depthAll (items.filterMap (·.expr?)) := by
  induction items with
  | nil => rw [depthAll, List.filterMap_nil, Expr.depthAll_nil]
  | cons i items ih => cases i <;> simp [depthAll, depth, SelectItem.expr?, ih]

theorem OrderTerm.depthAll_eq (ts : List OrderTerm) :
    depthAll ts = Expr.depthAll (ts.map (·.expr)) := by
  induction ts with
  | nil => rw [depthAll, List.map_nil, Expr.depthAll_nil]
  | cons t ts ih =>
    cases t
    rw [depthAll, List.map_cons, Expr.depthAll_cons, ih]

theorem ClauseSet.depth_eq (c : ClauseSet) :
    c.depth = Expr.depthAll (c.rowExprs ++ c.laterExprs) := by
  cases c
  simp only [depth, rowExprs, laterExprs, selectExprs, SelectItem.depthAll_eq,
    OrderTerm.depthAll_eq, Expr.depthOption_eq, Expr.depthAll_append, Nat.max_assoc]

/-- Only the condition of a node is written in a query. -/
theorem JoinNode.Derived.depth_eq {n : JoinNode} (h : n.Derived env) :
    n.depth = Expr.depthAll (n.condition.toList.map (·.expr)) := by
  obtain ⟨use, structural, condition, extra⟩ := n
  have hs : Expr.depthOption structural = 0 := by
    rw [Expr.depthOption_eq]
    exact Expr.depthAll_eq_zero fun e he => (h.structural e (Option.mem_toList.1 he)).depth_eq_zero
  have he : Expr.depthAll extra = 0 :=
    Expr.depthAll_eq_zero fun e he => (h.extra e he).depth_eq_zero
  rw [depth, hs, he]
  rcases condition with - | ⟨kind, e⟩ <;> simp [JoinCondition.depthOption]

theorem JoinNode.depthAll_eq {ns : List JoinNode} (h : ∀ n ∈ ns, n.Derived env) :
    depthAll ns = Expr.depthAll ((ns.filterMap (·.condition)).map (·.expr)) := by
  induction ns with
  | nil => rw [depthAll, List.filterMap_nil, List.map_nil, Expr.depthAll_nil]
  | cons n ns ih =>
    obtain ⟨hn, hns⟩ := List.forall_mem_cons.1 h
    rw [depthAll, hn.depth_eq, ih hns, List.filterMap_cons]
    cases n.condition <;> simp

/-- The depth of joins is that of the conditions written at them. -/
theorem JoinGraph.depth_eq (h : ∀ n ∈ g.nodes, n.Derived env) :
    g.depth = Expr.depthAll (g.conditions.map (·.expr)) := by
  cases g
  rw [depth, ← JoinNode.depthAll]
  exact JoinNode.depthAll_eq h

end ObjectQuery
