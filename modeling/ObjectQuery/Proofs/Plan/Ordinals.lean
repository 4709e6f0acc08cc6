import ObjectQuery.Proofs.Plan.Provenance
import ObjectQuery.Proofs.Plan.Reads

/-! # The placeholders of a plan

The ordinals of the placeholders in a plan, in the order in which SQL writes its clauses and joins:
the select list, the joins in the order they are declared, `WHERE`, `GROUP BY`, `HAVING` and
`ORDER BY`, subqueries where they stand.

* `Expr.ordinals`, `Subquery.ordinals`, `QueryPlan.ordinals`;
* `ExprFrom.ordinals`, `QueryFrom.ordinals`: the ordinals are those of the text. -/

namespace ObjectQuery

mutual

/-- The ordinals of the placeholders in a piece. -/
def Piece.ordinals : Piece → List Nat
  | .placeholder n => [n]
  | .subquery q => q.ordinals
  | .text _ | .column .. | .output .. | .discriminator .. => []

/-- The ordinals of the placeholders in several pieces. -/
def Piece.ordinalsAll : List Piece → List Nat
  | [] => []
  | p :: ps => p.ordinals ++ Piece.ordinalsAll ps

/-- The ordinals of the placeholders in an expression. -/
def Expr.ordinals : Expr → List Nat
  | ⟨pieces, _⟩ => Piece.ordinalsAll pieces

/-- The ordinals of the placeholders in an expression, if there is one. -/
def Expr.ordinalsOption : Option Expr → List Nat
  | none => []
  | some e => e.ordinals

/-- The ordinals of the placeholders in several expressions. -/
def Expr.ordinalsAll : List Expr → List Nat
  | [] => []
  | e :: es => e.ordinals ++ Expr.ordinalsAll es

/-- The ordinals of the placeholders in the condition of a join, if there is one. -/
def JoinCondition.ordinalsOption : Option JoinCondition → List Nat
  | none => []
  | some ⟨_, e⟩ => e.ordinals

/-- The ordinals of the placeholders in the predicates of a node. -/
def JoinNode.ordinals : JoinNode → List Nat
  | ⟨_, structural, condition, extra⟩ =>
    Expr.ordinalsOption structural ++ JoinCondition.ordinalsOption condition ++
      Expr.ordinalsAll extra

/-- The ordinals of the placeholders in the predicates of several nodes. -/
def JoinNode.ordinalsAll : List JoinNode → List Nat
  | [] => []
  | n :: ns => n.ordinals ++ JoinNode.ordinalsAll ns

/-- The ordinals of the placeholders in the joins of a graph. -/
def JoinGraph.ordinals : JoinGraph → List Nat
  | ⟨root, joins⟩ => root.ordinals ++ JoinNode.ordinalsAll joins

/-- The ordinals of the placeholders in a select list. -/
def SelectItem.ordinalsAll : List SelectItem → List Nat
  | [] => []
  | .field _ :: items => SelectItem.ordinalsAll items
  | .expression _ _ e _ :: items => e.ordinals ++ SelectItem.ordinalsAll items

/-- The ordinals of the placeholders in order terms. -/
def OrderTerm.ordinalsAll : List OrderTerm → List Nat
  | [] => []
  | ⟨e, _, _⟩ :: ts => e.ordinals ++ OrderTerm.ordinalsAll ts

/-- The ordinals of the placeholders in the clauses of a query, those of its joins given. -/
def ClauseSet.ordinals (joins : List Nat) : ClauseSet → List Nat
  | ⟨_, select, filter, groupBy, having, orderBy, _, _⟩ =>
    SelectItem.ordinalsAll select ++ joins ++ Expr.ordinalsOption filter ++
      Expr.ordinalsAll groupBy ++ Expr.ordinalsOption having ++ OrderTerm.ordinalsAll orderBy

/-- The ordinals of the placeholders in a subquery. -/
def Subquery.ordinals : Subquery → List Nat
  | ⟨graph, clauses, _⟩ => clauses.ordinals graph.ordinals

end

/-- The ordinals of the placeholders in a plan. -/
def QueryPlan.ordinals (p : QueryPlan) : List Nat := p.clauses.ordinals p.graph.ordinals

/-! ## Lists -/

theorem Piece.ordinalsAll_eq (ps : List Piece) : Piece.ordinalsAll ps = ps.flatMap ordinals := by
  induction ps with
  | nil => rfl
  | cons p ps ih => rw [Piece.ordinalsAll, ih, List.flatMap_cons]

theorem Piece.ordinalsAll_append (ps qs : List Piece) :
    Piece.ordinalsAll (ps ++ qs) = Piece.ordinalsAll ps ++ Piece.ordinalsAll qs := by
  simp only [Piece.ordinalsAll_eq, List.flatMap_append]

theorem Expr.ordinals_eq (e : Expr) : e.ordinals = Piece.ordinalsAll e.pieces := by
  cases e; rfl

theorem Expr.ordinalsAll_eq (es : List Expr) : Expr.ordinalsAll es = es.flatMap ordinals := by
  induction es with
  | nil => rfl
  | cons e es ih => rw [Expr.ordinalsAll, ih, List.flatMap_cons]

theorem Expr.ordinalsOption_eq (e : Option Expr) :
    Expr.ordinalsOption e = e.toList.flatMap ordinals := by
  cases e with
  | none => rfl
  | some e => simp [Expr.ordinalsOption]

theorem JoinCondition.ordinalsOption_eq (c : Option JoinCondition) :
    JoinCondition.ordinalsOption c = c.toList.flatMap (·.expr.ordinals) := by
  cases c with
  | none => rfl
  | some c => cases c; simp [JoinCondition.ordinalsOption]

theorem SelectItem.ordinalsAll_eq (items : List SelectItem) :
    SelectItem.ordinalsAll items = (items.filterMap (·.expr?)).flatMap Expr.ordinals := by
  induction items with
  | nil => rfl
  | cons i items ih =>
    cases i with
    | field f => simpa [SelectItem.ordinalsAll, SelectItem.expr?] using ih
    | expression o n e name => simp [SelectItem.ordinalsAll, SelectItem.expr?, ih]

theorem OrderTerm.ordinalsAll_eq (ts : List OrderTerm) :
    OrderTerm.ordinalsAll ts = ts.flatMap (·.expr.ordinals) := by
  induction ts with
  | nil => rfl
  | cons t ts ih => cases t; rw [OrderTerm.ordinalsAll, ih, List.flatMap_cons]

theorem JoinNode.ordinalsAll_eq (ns : List JoinNode) :
    JoinNode.ordinalsAll ns = ns.flatMap ordinals := by
  induction ns with
  | nil => rfl
  | cons n ns ih => rw [JoinNode.ordinalsAll, ih, List.flatMap_cons]

theorem JoinGraph.ordinals_eq (g : JoinGraph) : g.ordinals = g.nodes.flatMap JoinNode.ordinals := by
  cases g
  rw [JoinGraph.ordinals, JoinNode.ordinalsAll_eq, JoinGraph.nodes, List.flatMap_cons]

theorem ClauseSet.ordinals_eq (joins : List Nat) (c : ClauseSet) : c.ordinals joins =
    c.selectExprs.flatMap Expr.ordinals ++ joins ++ c.filter.toList.flatMap Expr.ordinals ++
      c.groupBy.flatMap Expr.ordinals ++ c.having.toList.flatMap Expr.ordinals ++
      c.orderBy.flatMap (·.expr.ordinals) := by
  cases c
  simp only [ClauseSet.ordinals, SelectItem.ordinalsAll_eq, Expr.ordinalsOption_eq,
    Expr.ordinalsAll_eq, OrderTerm.ordinalsAll_eq, ClauseSet.selectExprs]

theorem Subquery.ordinals_eq (q : Subquery) : q.ordinals = q.clauses.ordinals q.graph.ordinals := by
  cases q; rfl

/-- Putting pieces into canonical form keeps their placeholders. -/
theorem ordinalsAll_canonicalPieces (ps : List Piece) :
    Piece.ordinalsAll (canonicalPieces ps) = Piece.ordinalsAll ps := by
  refine canonicalPieces_induction
    (R := fun ps qs => Piece.ordinalsAll qs = Piece.ordinalsAll ps) rfl ?_ ?_ ?_ ps
  · exact fun p ps qs ih => congrArg (p.ordinals ++ ·) ih
  · exact fun ps qs ih => ih
  · exact fun t u ps qs ih => ih

theorem Generated.ordinals {env : Surroundings} {ps : List Piece} (h : Generated env ps) :
    Piece.ordinalsAll ps = [] := by
  induction h with
  | nil => rfl
  | text _ _ ih | column _ _ ih | test _ _ _ ih => exact ih
  | group _ _ ihp ihq =>
    rw [List.cons_append, Piece.ordinalsAll, Piece.ordinalsAll_append, ihp]
    exact ihq

theorem Expr.Generated.ordinals {env : Surroundings} {e : Expr} (h : e.Generated env) :
    e.ordinals = [] := by
  obtain ⟨ps, hps, he⟩ := h
  rw [Expr.ordinals_eq, he, ordinalsAll_canonicalPieces, hps.ordinals]

/-- Only the condition of a node has placeholders. -/
theorem JoinNode.Derived.ordinals {env : Surroundings} {n : JoinNode} (h : n.Derived env) :
    n.ordinals = n.condition.toList.flatMap (·.expr.ordinals) := by
  obtain ⟨-, hs, he⟩ := h
  cases n with
  | mk use structural condition extra =>
    have hs : Expr.ordinalsOption structural = [] := by
      rw [Expr.ordinalsOption_eq, List.flatMap_eq_nil_iff]
      exact fun e hmem => (hs e (Option.mem_toList.1 hmem)).ordinals
    have he : Expr.ordinalsAll extra = [] := by
      rw [Expr.ordinalsAll_eq, List.flatMap_eq_nil_iff]
      exact fun e hmem => (he e hmem).ordinals
    rw [JoinNode.ordinals, hs, he, List.nil_append, List.append_nil,
      JoinCondition.ordinalsOption_eq]

theorem JoinGraph.ordinals_of_derived {env : Surroundings} {g : JoinGraph}
    (h : ∀ n ∈ g.nodes, n.Derived env) : g.ordinals = g.conditions.flatMap (·.expr.ordinals) := by
  rw [JoinGraph.ordinals_eq, JoinGraph.conditions]
  generalize g.nodes = ns at h
  induction ns with
  | nil => rfl
  | cons n ns ih =>
    rw [List.flatMap_cons, (h n List.mem_cons_self).ordinals,
      ih fun m hm => h m (List.mem_cons_of_mem _ hm), List.filterMap_cons]
    cases n.condition with
    | none => rfl
    | some c => simp

/-! ## The ordinals of the text

Whether the placeholders of a plan come in the order of the text depends on the order of the
clauses alone. What follows holds for equality of lists and for equality up to order alike. -/

/-- A relation between lists that is preserved by putting lists one after the other. -/
structure Concatenates (r : List Nat → List Nat → Prop) : Prop where
  nil : r [] []
  append {a b c d : List Nat} : r a b → r c d → r (a ++ c) (b ++ d)
  trans {a b c : List Nat} : r a b → r b c → r a c
  singleton (n : Nat) : r [n] [n]
  map (base : Nat) {a b : List Nat} : r a b → r (a.map (base + ·)) (b.map (base + ·))

theorem Concatenates.perm : Concatenates List.Perm :=
  ⟨.nil, .append, .trans, fun _ => .refl _, fun _ => .map _⟩

theorem Concatenates.eq : Concatenates Eq :=
  ⟨rfl, fun h h' => by rw [h, h'], .trans, fun _ => rfl, fun _ _ _ h => by rw [h]⟩

section
variable {env : Surroundings} {R : Origin} {T : Text} {r : List Nat → List Nat → Prop}
  {param off base : Nat} {fs : List Fragment} {ps : List Piece}

/-- The subqueries among fragments of the text have the ordinals of their texts. -/
def Faithful (env : Surroundings) (R : Origin) (T : Text) (r : List Nat → List Nat → Prop)
    (fs : List Fragment) : Prop :=
  ∀ param off inner q, .subquery inner ∈ fs → R T param off inner q →
    r q.ordinals (List.range' param (env.config.scanner.count inner))

theorem FragmentsFrom.ordinals (hr : Concatenates r) (hR : Faithful env R T r fs)
    (hw : ∀ f ∈ fs, f.WellRead env.config.scanner) (h : FragmentsFrom env R T param off fs ps) :
    r (Piece.ordinalsAll ps) (List.range' param
      (env.config.scanner.count (fs.flatMap Fragment.source))) := by
  induction h with
  | nil => exact hr.nil
  | @cons param off f fs ps qs hf h ih =>
    have hwf := hw _ List.mem_cons_self
    have ih := ih (fun _ _ _ _ hmem => hR _ _ _ _ (List.mem_cons_of_mem _ hmem))
      fun f hf => hw f (List.mem_cons_of_mem _ hf)
    rw [Piece.ordinalsAll_append, List.flatMap_cons, Scanner.count_append hwf.run_source,
      hwf.count_source, ← List.range'_append_1]
    refine hr.append ?_ ih
    cases hf with
    | verbatim | kept | column | output => exact hr.nil
    | placeholder => exact hr.singleton _
    | @subquery inner q hq =>
      have hi : env.config.scanner.Balanced inner := hwf.1
      show r (q.ordinals ++ []) (List.range' param ((env.config.scanner.scan inner).marks.countP _))
      rw [List.append_nil, hi.countP_marks]
      exact hR _ _ _ _ List.mem_cons_self hq

/-- An expression has the placeholders of the text it comes from. -/
theorem ExprFrom.ordinals {g : Segment} {e : Expr} (hr : Concatenates r)
    (hR : Faithful env R T r (Fragment.ofText env.config.scanner g.text))
    (h : ExprFrom env R T g e) : r e.ordinals (g.ordinals env.config.scanner) := by
  obtain ⟨off, ps, hs, hps, he⟩ := h
  have hrun := hs.balanced.run
  have := hps.ordinals hr hR fun f hf => Fragment.wellRead_of_mem_ofText hrun hf
  rw [Expr.ordinals_eq, he, ordinalsAll_canonicalPieces]
  rwa [Fragment.flatMap_source_ofText hrun] at this

/-- Every expression that comes from the text has faithful subqueries. -/
abbrev AllFaithful (env : Surroundings) (R : Origin) (T : Text)
    (r : List Nat → List Nat → Prop) : Prop :=
  ∀ pos param u, env.config.scanner.Stands T pos param u →
    Faithful env R T r (Fragment.ofText env.config.scanner u)

theorem PartsFrom.ordinals {ks : List Nat} {es : List Expr} (hr : Concatenates r)
    (hR : AllFaithful env R T r) (h : PartsFrom env R T ks es) : r (es.flatMap Expr.ordinals) ks := by
  obtain ⟨parts, hparts, rfl⟩ := h
  induction hparts with
  | nil => exact hr.nil
  | cons he _ ih =>
    rw [List.flatMap_cons, List.flatMap_cons]
    obtain ⟨pos, _, hs, -⟩ := id he
    exact hr.append (he.ordinals hr (hR _ _ _ hs)) ih

theorem clauseOrdinals_eq (s : Scanner) (clause : Option Segment) :
    clauseOrdinals s base clause = (clause.toList.flatMap (·.ordinals s)).map (base + ·) := by
  cases clause with
  | none => rfl
  | some g => simp [clauseOrdinals, Segment.ordinals, Segment.after, List.map_add_range']

theorem ListFrom.ordinals {clause : Option Segment} {es : List Expr} (hr : Concatenates r)
    (hR : AllFaithful env R T r) (h : ListFrom env R T base clause es) :
    r (es.flatMap Expr.ordinals)
      ((clause.toList.flatMap (·.ordinals env.config.scanner)).map (base + ·)) := by
  have := PartsFrom.ordinals hr hR h
  rwa [clauseOrdinals_eq] at this

theorem conditions_ordinals {written : List Condition} {cs : List JoinCondition}
    (hr : Concatenates r) (hR : AllFaithful env R T r)
    (h : List.Forall₂ (ConditionFrom env R T base) written cs) :
    r (cs.flatMap (·.expr.ordinals))
      ((written.flatMap (·.segment.ordinals env.config.scanner)).map (base + ·)) := by
  induction h with
  | nil => exact hr.nil
  | @cons w c _ _ hc _ ih =>
    rw [List.flatMap_cons, List.flatMap_cons, List.map_append]
    refine hr.append ?_ ih
    obtain ⟨pos, _, hs, -⟩ := id hc.2
    have := hc.2.ordinals hr (hR _ _ _ hs)
    simpa [Segment.ordinals, Segment.after, List.map_add_range'] using this

theorem FromList.ordinals_eq {s : Scanner} (f : FromList) :
    f.ordinals s = (f.joins.filterMap (·.condition)).flatMap (·.segment.ordinals s) := by
  rw [FromList.ordinals]
  induction f.joins with
  | nil => rfl
  | cons j js ih =>
    rw [List.flatMap_cons, ih, List.filterMap_cons, Joined.ordinals]
    cases j.condition with
    | none => rfl
    | some c => simp

/-- The joins and clauses that come from a query have its placeholders, in the same order, when
nothing else is ordered by. -/
theorem QueryFrom.ordinals {q : Query} {g : JoinGraph} {c : ClauseSet} (hr : Concatenates r)
    (hR : AllFaithful env R T r) (h : QueryFrom env R T base q g c)
    (hi : ∀ t ∈ c.orderBy, t.implicit = true → t.expr.ordinals = []) :
    r (c.ordinals g.ordinals) ((q.ordinals env.config.scanner).map (base + ·)) := by
  have horder : c.orderBy.flatMap (·.expr.ordinals) = c.explicitOrder.flatMap Expr.ordinals := by
    rw [ClauseSet.explicitOrder, List.flatMap_map]
    generalize c.orderBy = ts at hi
    induction ts with
    | nil => rfl
    | cons t ts ih =>
      rw [List.flatMap_cons, ih fun t ht => hi t (List.mem_cons_of_mem _ ht)]
      cases ht : t.implicit with
      | true => rw [List.filter_cons_of_neg (by simp [ht]), hi t List.mem_cons_self ht]; rfl
      | false => rw [List.filter_cons_of_pos (by simp [ht]), List.flatMap_cons]
  have hq : (q.ordinals env.config.scanner) =
      q.select.toList.flatMap (·.ordinals env.config.scanner) ++
        q.source.ordinals env.config.scanner ++
        q.filter.toList.flatMap (·.ordinals env.config.scanner) ++
        q.groupBy.toList.flatMap (·.ordinals env.config.scanner) ++
        q.having.toList.flatMap (·.ordinals env.config.scanner) ++
        q.orderBy.toList.flatMap (·.ordinals env.config.scanner) := by
    simp [Query.ordinals, Clause.written, Query.clauseOrdinals]
  rw [ClauseSet.ordinals_eq, horder, JoinGraph.ordinals_of_derived h.graph.derived, hq,
    FromList.ordinals_eq]
  simp only [List.map_append]
  exact hr.append (hr.append (hr.append (hr.append (hr.append (h.select.ordinals hr hR)
    (conditions_ordinals hr hR h.graph.conditions)) (h.filter.ordinals hr hR))
    (h.groupBy.ordinals hr hR)) (h.having.ordinals hr hR)) (h.orderBy.ordinals hr hR)

end
end ObjectQuery
