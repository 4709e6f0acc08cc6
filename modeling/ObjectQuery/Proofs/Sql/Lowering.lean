import ObjectQuery.Proofs.Plan.Conservation
import ObjectQuery.Proofs.Plan.Soundness
import ObjectQuery.Proofs.Sql.Binds

/-! # Statements bind the placeholders of the plan

Lowering a plan changes neither its placeholders nor their order, as long as the joins are written
in the order they are declared.

* `Subquery.Bound`: a subquery binds its placeholders in order;
* `SubqueryFrom.bound`: every subquery of the text does;
* `binds_toSelect`: the values that the statement of a query binds. -/

namespace ObjectQuery

open Sql

variable {env : Surroundings} {names : AliasNames} {style : Style} {e : Expr} {g : JoinGraph}
  {c : ClauseSet}

/-- The statement of a subquery binds the placeholders of the subquery, in order. -/
def Subquery.Bound (q : Subquery) : Prop :=
  ∀ names style, binds ((q.toSelect names).parts style) = q.ordinals

/-! ## Expressions -/

theorem binds_termsAll {ps : List Piece} (h : ∀ p ∈ ps, p.Sound env Subquery.Bound) :
    termBinds style (Piece.termsAll names ps) = Piece.ordinalsAll ps := by
  induction ps with
  | nil => rfl
  | cons p ps ih =>
    obtain ⟨hp, hps⟩ := List.forall_mem_cons.1 h
    rw [Piece.termsAll, termBinds_cons, ih hps, Piece.ordinalsAll]
    cases p with
    | subquery q =>
      have hq : q.Bound := hp
      exact congrArg (· ++ Piece.ordinalsAll ps) (hq names style)
    | text | column | output | placeholder | discriminator => rfl

theorem binds_terms (h : e.Sound env Subquery.Bound) :
    termBinds style (e.terms names) = e.ordinals := by
  obtain ⟨ps, aggregate⟩ := e
  exact binds_termsAll h.pieces

theorem termsEach_eq (es : List Expr) : Expr.termsEach names es = es.map (·.terms names) := by
  induction es with
  | nil => rfl
  | cons e es ih => rw [Expr.termsEach, ih, List.map_cons]

theorem termsOption_eq (e : Option Expr) : Expr.termsOption names e = e.map (·.terms names) := by
  cases e <;> rfl

theorem binds_termsEach {es : List Expr} (h : ∀ e ∈ es, e.Sound env Subquery.Bound) :
    (Expr.termsEach names es).flatMap (termBinds style) = es.flatMap Expr.ordinals := by
  rw [termsEach_eq, List.flatMap_map]
  exact List.flatMap_congr fun e he => binds_terms (h e he)

theorem binds_termsOption {e : Option Expr} (h : ∀ x ∈ e, x.Sound env Subquery.Bound) :
    (Expr.termsOption names e).toList.flatMap (termBinds style) =
      e.toList.flatMap Expr.ordinals := by
  cases e with
  | none => rfl
  | some e => simpa [Expr.termsOption] using binds_terms (h e rfl)

/-! ## Joins -/

section
variable {n : JoinNode} {ns : List JoinNode}

/-- The conditions of a join are the predicates of its node. -/
theorem join_on (n : JoinNode) :
    (n.join names).on = n.predicates.map fun p => ⟨p.1.terms names, p.2⟩ := by
  obtain ⟨use, structural, condition, extra⟩ := n
  simp only [JoinNode.join, JoinNode.predicates, List.map_append, List.map_map, termsEach_eq,
    termsOption_eq]
  obtain - | ⟨kind, e⟩ := condition
  · cases structural <;> rfl
  · cases kind <;> cases structural <;> rfl

theorem mem_exprs_of_mem_predicates {p : Expr × Bool} (h : p ∈ n.predicates) : p.1 ∈ n.exprs := by
  obtain ⟨use, structural, condition, extra⟩ := n
  simp only [JoinNode.predicates, JoinNode.exprs, List.mem_append, List.mem_map] at h ⊢
  rcases h with h | ⟨e, he, rfl⟩
  · refine .inl ?_
    obtain - | ⟨kind, e⟩ := condition
    · obtain ⟨x, hx, rfl⟩ := List.mem_map.1 h
      exact .inl hx
    · cases kind with
      | replacing =>
        rw [List.mem_singleton.1 h]
        exact .inr ⟨_, List.mem_singleton_self _, rfl⟩
      | extending =>
        rcases List.mem_append.1 h with h | h
        · obtain ⟨x, hx, rfl⟩ := List.mem_map.1 h
          exact .inl hx
        · rw [List.mem_singleton.1 h]
          exact .inr ⟨_, List.mem_singleton_self _, rfl⟩
  · exact .inr he

theorem conjunctBinds_on (h : ∀ e ∈ n.exprs, e.Sound env Subquery.Bound) :
    conjunctBinds style (n.join names).on = n.predicates.flatMap (·.1.ordinals) := by
  rw [conjunctBinds, join_on, List.flatMap_map]
  exact List.flatMap_congr fun p hp => binds_terms (h p.1 (mem_exprs_of_mem_predicates hp))

/-- Only the condition of a node has placeholders, and it is among its predicates. -/
theorem JoinNode.Derived.predicates_ordinals (h : n.Derived env) :
    n.predicates.flatMap (·.1.ordinals) = n.ordinals := by
  rw [h.ordinals]
  obtain ⟨-, hs, he⟩ := h
  obtain ⟨use, structural, condition, extra⟩ := n
  have hextra : extra.flatMap Expr.ordinals = [] :=
    List.flatMap_eq_nil_iff.2 fun e hmem => (he e hmem).ordinals
  have hstructural : structural.toList.flatMap Expr.ordinals = [] :=
    List.flatMap_eq_nil_iff.2 fun e hmem => (hs e (Option.mem_toList.1 hmem)).ordinals
  simp only [JoinNode.predicates, List.flatMap_append, List.flatMap_map, hextra, List.append_nil]
  obtain - | ⟨kind, e⟩ := condition
  · rw [List.flatMap_map]
    exact hstructural
  · cases kind <;> simp [List.flatMap_map, hstructural]

theorem joins_eq (ns : List JoinNode) :
    JoinNode.joins names ns = ns.map fun n => (n.id, n.join names) := by
  induction ns with
  | nil => rfl
  | cons n ns ih => rw [JoinNode.joins, ih, List.map_cons]

theorem mem_arrangeJoins {root : AliasId} {joins : List (AliasId × Join)} {emitted : List AliasId}
    {j : Join} (h : j ∈ arrangeJoins root joins emitted) : ∃ a, (a, j) ∈ joins := by
  obtain ⟨a, -, h⟩ := List.mem_filterMap.1 h
  obtain ⟨⟨a', j'⟩, hf, rfl⟩ := Option.map_eq_some_iff.1 h
  exact ⟨a', List.mem_of_find?_eq_some hf⟩

theorem mem_sqlJoins {emitted : List AliasId} {j : Join} (h : j ∈ g.sqlJoins names emitted) :
    ∃ n ∈ g.nodes, j = n.join names := by
  obtain ⟨root, joins⟩ := g
  obtain ⟨a, ha⟩ := mem_arrangeJoins h
  rw [joins_eq] at ha
  obtain ⟨n, hn, he⟩ := List.mem_map.1 ha
  exact ⟨n, List.mem_cons_of_mem _ hn, (congrArg Prod.snd he).symm⟩

/-- The join of an alias is found under it, when no other join has the alias. -/
theorem find_join (h : (ns.map (·.id)).Nodup) (hn : n ∈ ns) :
    (ns.map fun m => (m.id, m.join names)).find? (·.1 == n.id) = some (n.id, n.join names) := by
  induction ns with
  | nil => cases hn
  | cons m ns ih =>
    rw [List.map_cons, List.nodup_cons] at h
    rw [List.map_cons]
    rcases List.mem_cons.1 hn with rfl | hn
    · exact List.find?_cons_of_pos (by simp)
    · rw [List.find?_cons_of_neg, ih h.2 hn]
      have hne : m.id ≠ n.id := fun he => h.1 (he ▸ List.mem_map_of_mem hn)
      simpa using hne

/-- In the order they are declared, the joins are those of the nodes. -/
theorem sqlJoins_aliases (h : g.aliases.Nodup) :
    g.sqlJoins names g.aliases = g.joins.map (·.join names) := by
  obtain ⟨root, joins⟩ := g
  obtain ⟨hroot, hnodup⟩ := List.nodup_cons.1 h
  have hfilter : (joins.map (·.id)).filter (· != root.id) = joins.map (·.id) := by
    refine List.filter_eq_self.2 fun a ha => ?_
    rw [bne_iff_ne]
    rintro rfl
    exact hroot ha
  rw [JoinGraph.sqlJoins, arrangeJoins, joins_eq, JoinGraph.aliases, JoinGraph.nodes,
    List.map_cons, List.filter_cons_of_neg (by simp), hfilter, List.filterMap_map]
  have hall : ∀ ns : List JoinNode, (∀ n ∈ ns, n ∈ joins) →
      ns.filterMap ((fun id => ((joins.map fun m => (m.id, m.join names)).find?
        (·.1 == id)).map (·.2)) ∘ fun n => n.id) = ns.map (·.join names) := by
    intro ns hns
    induction ns with
    | nil => rfl
    | cons n ns ih =>
      obtain ⟨hn, hns⟩ := List.forall_mem_cons.1 hns
      rw [List.filterMap_cons_some (b := n.join names), ih hns, List.map_cons]
      simp only [Function.comp, find_join hnodup hn, Option.map_some]
  exact hall joins fun _ hn => hn

/-- The joins of a graph in the order they are declared bind the placeholders of the graph. -/
theorem binds_sqlJoins (hd : ∀ n ∈ g.nodes, n.Derived env) (hroot : g.root.ordinals = [])
    (hs : ∀ n ∈ g.nodes, ∀ e ∈ n.exprs, e.Sound env Subquery.Bound) (h : g.aliases.Nodup) :
    ((g.sqlJoins names g.aliases).flatMap fun j => conjunctBinds style j.on) = g.ordinals := by
  rw [sqlJoins_aliases h, List.flatMap_map, JoinGraph.ordinals_eq, JoinGraph.nodes,
    List.flatMap_cons, hroot, List.nil_append]
  refine List.flatMap_congr fun n hn => ?_
  have hn : n ∈ g.nodes := List.mem_cons_of_mem _ hn
  rw [conjunctBinds_on (hs n hn), (hd n hn).predicates_ordinals]

end

/-! ## Clauses -/

theorem binds_items_eq {items : List SelectItem} {hydrated : Bool}
    (h : ∀ e ∈ items.filterMap (·.expr?), e.Sound env Subquery.Bound) :
    ((SelectItem.items names hydrated items).flatMap fun i => termBinds style i.terms) =
      (items.filterMap (·.expr?)).flatMap Expr.ordinals := by
  induction items with
  | nil => rfl
  | cons i items ih =>
    cases i with
    | field f => exact ih h
    | expression o k e name =>
      obtain ⟨he, hrest⟩ := List.forall_mem_cons.1 h
      rw [SelectItem.items, List.flatMap_cons, ih hrest, binds_terms he]; rfl

theorem binds_orders_eq {ts : List OrderTerm}
    (h : ∀ t ∈ ts, t.expr.Sound env Subquery.Bound) :
    ((OrderTerm.orders names ts).flatMap fun o => termBinds style o.terms) =
      ts.flatMap (·.expr.ordinals) := by
  induction ts with
  | nil => rfl
  | cons t ts ih =>
    obtain ⟨ht, hrest⟩ := List.forall_mem_cons.1 h
    obtain ⟨e, direction, implicit⟩ := t
    rw [OrderTerm.orders, List.flatMap_cons, ih hrest, binds_terms ht, List.flatMap_cons]

theorem binds_rootTable (use : TableUse) : binds (Sql.Source.parts style (use.rootTable names)) = [] :=
  rfl

theorem binds_rootTest (use : TableUse) : conjunctBinds style (use.rootTest names) = [] := by
  rw [TableUse.rootTest]
  cases use.component.inheritance <;> rfl

/-- The condition of a query and the test of its root bind the placeholders of the condition. -/
theorem binds_filter {use : TableUse} {e? : Option Expr}
    (h : ∀ e ∈ e?, e.Sound env Subquery.Bound) :
    conjunctBinds style ((Expr.termsOption names e?).toList.map (fun t => ⟨t, true⟩) ++
      use.rootTest names) = e?.toList.flatMap Expr.ordinals := by
  rw [conjunctBinds, List.flatMap_append, List.flatMap_map]
  exact (congrArg _ (binds_rootTest use)).trans ((List.append_nil _).trans (binds_termsOption h))

/-- The statement with the clauses of a query binds their placeholders, and those of its joins. -/
theorem binds_toSelect {hydrated : Bool} {use : TableUse} {joins : List Join}
    (h : c.Each (·.Sound env Subquery.Bound)) :
    binds ((c.toSelect names hydrated (use.rootTable names) joins (use.rootTest names)).parts style) =
      c.ordinals (joins.flatMap fun j => conjunctBinds style j.on) := by
  obtain ⟨distinct, select, filter, groupBy, having, orderBy, limit, offset⟩ := c
  rw [Select.binds_parts, ClauseSet.ordinals_eq]
  simp only [ClauseSet.toSelect]
  rw [binds_items_eq h.select, binds_rootTable, List.append_nil, binds_filter h.filter,
    binds_termsEach h.groupBy, binds_termsOption h.having, binds_orders_eq h.orderBy]
  rfl

/-! ## Queries -/

theorem root_ordinals {R : Origin} {T : Text} {base : Nat} {f : FromList}
    (h : GraphFrom env R T base f g) : g.root.ordinals = [] := by
  rw [(h.derived g.root List.mem_cons_self).ordinals, h.root]; rfl

/-- The statement of a query binds the placeholders of its clauses and joins, in order, when the
joins are written in the order they are declared. -/
theorem QueryFrom.binds {R : Origin} {T : Text} {base : Nat} {q : Query} {hydrated : Bool}
    (h : QueryFrom env R T base q g c) (hs : QuerySound env Subquery.Bound g c) :
    Sql.binds ((c.toSelect names hydrated (g.root.rootTable names) (g.sqlJoins names g.aliases)
      (g.root.rootTest names)).parts style) = c.ordinals g.ordinals := by
  rw [binds_toSelect hs.clauses,
    binds_sqlJoins h.graph.derived (root_ordinals h.graph) hs.joins h.graph.nodup]

/-- A subquery of the text binds its placeholders, in order. -/
theorem SubqueryFrom.bound {levels : Nat} {T : Text} {param off : Nat} {inner : Text}
    {q : Subquery} (h : SubqueryFrom env levels T param off inner q) : q.Bound := by
  induction levels generalizing T param off inner q with
  | zero => cases h
  | succ levels ih =>
    have hsound := h.sound
    obtain ⟨-, -, hemitted, parsed, -, hq⟩ := h
    have hbound : ∀ q, Origin.Any (SubqueryFrom env levels) q → q.Bound := by
      rintro q ⟨T, param, off, inner, h⟩
      exact ih h
    intro names style
    obtain ⟨graph, clauses, emitted⟩ := q
    cases (show emitted = graph.aliases from hemitted)
    exact hq.binds (hsound.mono hbound)

end ObjectQuery
