import ObjectQuery.Proofs.Plan.Ordinals
import ObjectQuery.Proofs.Query.Nesting

/-! # Conservation of placeholders

A plan that comes from a text has each placeholder of the text exactly once, and has them in the
order of the text when at every level of nesting the clauses come in the order of SQL.

* `SubqueryFrom.ordinals_perm`, `SubqueryFrom.ordinals_inOrder`: queries inside a text;
* `PlanFrom.ordinals_perm`, `PlanFrom.ordinals_inOrder`: whole plans. -/

namespace ObjectQuery

variable {env : Surroundings} {T inner : Text} {param off levels : Nat} {q : Subquery}
  {p : QueryPlan}

theorem map_add_range (base n : Nat) : (List.range n).map (base + ·) = List.range' base n := by
  rw [List.range_eq_range', List.map_add_range', Nat.add_zero]

theorem SubqueryFrom.ordinals_perm (h : SubqueryFrom env levels T param off inner q) :
    q.ordinals.Perm (List.range' param (env.config.scanner.count inner)) := by
  induction levels generalizing T param off inner q with
  | zero => cases h
  | succ levels ih =>
    obtain ⟨-, himp, -, parsed, hparse, hq⟩ := h
    have hread := Query.parse_spec hparse
    have hord := hq.ordinals .perm (fun _ _ _ _ _ _ _ _ _ => ih) fun t ht hi => by
      rw [himp t ht] at hi
      cases hi
    rw [← map_add_range, Subquery.ordinals_eq]
    exact hord.trans ((hread.perm hq.graph.tame).map _)

/-- An expression that comes from a text without placeholders has none. -/
theorem ExprFrom.ordinals_eq_nil {g : Segment} {e : Expr}
    (h : ExprFrom env (SubqueryFrom env levels) T g e) (hT : env.config.scanner.count T = 0) :
    e.ordinals = [] := by
  have hord := h.ordinals .perm fun _ _ _ _ _ => SubqueryFrom.ordinals_perm
  obtain ⟨_, _, hs, -⟩ := h
  have hle := hs.count_le
  rw [Segment.ordinals, show env.config.scanner.count g.text = 0 by omega] at hord
  exact hord.eq_nil

/-- A query inside a text whose clauses all come in the order of SQL. -/
theorem SubqueryFrom.ordinals_inOrder (hT : env.config.scanner.Balanced T)
    (hin : ∀ u ∈ env.config.scanner.nestedQueries T, env.config.scanner.ClausesInOrder u)
    (ho : env.config.scanner.ClausesInOrder inner)
    (h : SubqueryFrom env levels T param off inner q) :
    q.ordinals = List.range' param (env.config.scanner.count inner) := by
  induction levels generalizing param off inner q with
  | zero => cases h
  | succ levels ih =>
    obtain ⟨-, himp, -, parsed, hparse, hq⟩ := h
    have hread := Query.parse_spec hparse
    have hord := hq.ordinals .eq
      (fun _ _ _ hs _ _ inner _ hm => ih (hin inner (hs.mem_nestedQueries hT hm)))
      fun t ht hi => by
        rw [himp t ht] at hi
        cases hi
    rw [← map_add_range, ← hread.inOrder hq.graph.tame ho, Subquery.ordinals_eq]
    exact hord

theorem PlanFrom.ordinals_implicit (h : PlanFrom env T p) :
    ∀ t ∈ p.clauses.orderBy, t.implicit = true → t.expr.ordinals = [] := by
  intro t ht hi
  obtain ⟨ordering, g, hcount, he⟩ := h.implicit t ht hi
  exact he.ordinals_eq_nil hcount

/-- A plan has every placeholder of its text once. -/
theorem PlanFrom.ordinals_perm (h : PlanFrom env T p) :
    p.ordinals.Perm (List.range p.placeholders) := by
  obtain ⟨parsed, hparse, hq⟩ := h.query
  have hread := Query.parse_spec hparse
  have hord := hq.ordinals .perm (fun _ _ _ _ _ _ _ _ _ => SubqueryFrom.ordinals_perm)
    h.ordinals_implicit
  rw [h.placeholders]
  refine hord.trans ?_
  simpa using hread.perm hq.graph.tame

/-- A plan has the placeholders of its text in their order, when the clauses come in the order of
SQL. -/
theorem PlanFrom.ordinals_inOrder (h : PlanFrom env T p)
    (ho : env.config.scanner.AllInOrder T) : p.ordinals = List.range p.placeholders := by
  obtain ⟨parsed, hparse, hq⟩ := h.query
  have hread := Query.parse_spec hparse
  have hord := hq.ordinals .eq
    (fun _ _ _ hs _ _ inner _ hm =>
      SubqueryFrom.ordinals_inOrder hread.balanced ho.2
        (ho.2 inner (hs.mem_nestedQueries hread.balanced hm)))
    h.ordinals_implicit
  rw [h.placeholders, ← hread.inOrder hq.graph.tame ho.1, QueryPlan.ordinals, hord]
  simp

end ObjectQuery
