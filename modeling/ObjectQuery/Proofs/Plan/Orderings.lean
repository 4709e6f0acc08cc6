import ObjectQuery.Proofs.Plan.Order
import ObjectQuery.Proofs.Scope.Plan

/-! # The order terms of a plan

The rows of a query are ordered as it says, and then as the schema says: by the orderings of the joins
that are written, in order, and by that of the root. A term of the schema that repeats another one is
left out.

* `JoinGraph.AsksFor`, `JoinGraph.Orderings`: the orderings of the schema;
* `OrderingTerms`: what they are resolved to;
* `plan_ordered`: the order terms of a plan. -/

namespace ObjectQuery

open Resolve

variable {env : Surroundings} {T : Text} {p : QueryPlan} {g : JoinGraph} {c c' : ClauseSet}
  {b b' : Bindings} {n k : JoinNode} {subquery : ResolveSubquery} {emitted : List AliasId}
  {os : List (AliasId × String)} {ts us : List OrderTerm}

/-! ## Orderings of the schema -/

/-- The ordering of an alias, if there is one. -/
def orderingOf (id : AliasId) (ordering : Option String) : List (AliasId × String) :=
  ordering.toList.map fun o => (id, o)

/-- The orderings that the schema asks for at a join, each with the alias that it is about. An
ordering of the relation takes the place of that of a component. -/
inductive JoinGraph.AsksFor (g : JoinGraph) (n : JoinNode) : List (AliasId × String) → Prop
  | nothing (hrole : n.role ≠ .target) : AsksFor g n []
  | direct {r : Relation} (hrole : n.role = .target) (hr : n.relation = some r)
    (hkind : r.kind ≠ .manyToMany) : AsksFor g n (orderingOf n.id (r.orderBy.or n.component.orderBy))
  /-- The ordering of the bridge comes first. -/
  | bridged {r : Relation} {k : JoinNode} (hrole : n.role = .target) (hr : n.relation = some r)
    (hkind : r.kind = .manyToMany) (hk : k ∈ g.nodes) (hbridge : k.role = .bridge)
    (hparent : n.parent = some k.id) :
    AsksFor g n (orderingOf k.id (r.bridgeOrderBy.or k.component.orderBy) ++
      orderingOf n.id (r.orderBy.or n.component.orderBy))

/-- The orderings that the schema asks for when the joins `emitted` are written: those of each join in
order, and last that of the root. -/
def JoinGraph.Orderings (g : JoinGraph) (emitted : List AliasId) (os : List (AliasId × String)) :
    Prop :=
  ∃ oss, List.Forall₂ (fun id os => ∃ n ∈ g.nodes, n.id = id ∧ g.AsksFor n os) emitted oss ∧
    os = oss.flatten ++ orderingOf g.root.id g.root.component.orderBy

theorem joinOrderings_of_role_ne (h : n.role ≠ .target) : joinOrderings g n = [] := by
  rw [joinOrderings]
  split
  · rename_i hrole _
    exact absurd hrole h
  · rfl

theorem joinOrderings_direct {r : Relation} (hrole : n.role = .target) (hr : n.relation = some r)
    (hkind : r.kind ≠ .manyToMany) :
    joinOrderings g n = orderingOf n.id (r.orderBy.or n.component.orderBy) := by
  rw [joinOrderings, hrole, hr]
  dsimp only
  split
  · rename_i hk _
    exact absurd hk hkind
  · rfl

theorem joinOrderings_bridged {r : Relation} (hrole : n.role = .target) (hr : n.relation = some r)
    (hkind : r.kind = .manyToMany) (hk : g.node? k.id = some k) (hparent : n.parent = some k.id) :
    joinOrderings g n = orderingOf k.id (r.bridgeOrderBy.or k.component.orderBy) ++
      orderingOf n.id (r.orderBy.or n.component.orderBy) := by
  rw [joinOrderings, hrole, hr]
  dsimp only
  rw [hkind, hparent, Option.bind_some, hk]
  rfl

theorem JoinGraph.Hopping.asksFor (h : g.Hopping) (hnodup : g.aliases.Nodup) (hn : n ∈ g.nodes) :
    g.AsksFor n (joinOrderings g n) := by
  by_cases hrole : n.role = .target
  · have hjoin : n ∈ g.joins := (List.mem_cons.1 hn).resolve_left fun he => by
      rw [he, h.root] at hrole
      cases hrole
    obtain ⟨r, hr⟩ : ∃ r, n.relation = some r := by
      rcases h.joins.mem hjoin with ⟨r, hr⟩ | ⟨m, -, hbridges, -⟩
      · exact ⟨r, hr.relation⟩
      · rw [hbridges.role] at hrole
        cases hrole
    by_cases hkind : r.kind = .manyToMany
    · obtain ⟨pre, post, hsplit⟩ := List.append_of_mem hn
      obtain ⟨before, k, rfl, hk⟩ := h.bridge_before hsplit hrole hr hkind
      have hmem : k ∈ g.nodes := by
        rw [hsplit]
        simp
      rw [joinOrderings_bridged hrole hr hkind (g.node?_of_mem hnodup hmem) hk.parent]
      exact .bridged hrole hr hkind hmem hk.role hk.parent
    · rw [joinOrderings_direct hrole hr hkind]
      exact .direct hrole hr hkind
  · rw [joinOrderings_of_role_ne hrole]
    exact .nothing hrole

theorem JoinGraph.Hopping.orderings (h : g.Hopping) (hnodup : g.aliases.Nodup)
    (hemitted : emitted ⊆ g.aliases) : g.Orderings emitted (defaultOrderings g emitted) := by
  refine ⟨(emitted.filterMap g.node?).map (joinOrderings g), ?_, ?_⟩
  · induction emitted with
    | nil => exact .nil
    | cons id ids ih =>
      obtain ⟨hid, hids⟩ := List.cons_subset.1 hemitted
      obtain ⟨n, hn, rfl⟩ := List.mem_map.1 hid
      rw [List.filterMap_cons, g.node?_of_mem hnodup hn]
      exact .cons ⟨n, hn, rfl, h.asksFor hnodup hn⟩ (ih hids)
  · rw [defaultOrderings, List.flatMap_def]
    rfl

/-! ## Terms -/

/-- The terms of orderings, each item of them resolved for the alias that its ordering is about. -/
inductive OrderingTerms (env : Surroundings) (subquery : ResolveSubquery) :
    List (AliasId × String) → Bindings → List OrderTerm → Bindings → Prop
  | nil {b : Bindings} : OrderingTerms env subquery [] b [] b
  | cons {id : AliasId} {ordering : String} {os : List (AliasId × String)} {items : List Item}
    {ts us : List OrderTerm} {b b₁ b' : Bindings}
    (hitems : segmentItems env.config.scanner .orderBy 0 ⟨ordering.toList, 0⟩ = .ok items)
    (hts : Runs (items.mapM fun i =>
      resolveOrderItem env subquery { default := some id } true ⟨i.text, 0⟩) b ts b₁)
    (hus : OrderingTerms env subquery os b₁ us b') :
    OrderingTerms env subquery ((id, ordering) :: os) b (ts ++ us) b'

theorem runs_appendOrderings (h : Runs (os.foldlM (fun terms o =>
    appendOrdering env subquery terms o.1 o.2.toList) ts) b us b') :
    ∃ candidates, OrderingTerms env subquery os b candidates b' ∧
      us = ts ++ dropRepeats ts candidates := by
  induction os generalizing ts b with
  | nil =>
    obtain ⟨rfl, rfl⟩ := runs_foldlM_nil.1 h
    exact ⟨[], .nil, (List.append_nil _).symm⟩
  | cons o os ih =>
    obtain ⟨ts₁, b₁, h1, h2⟩ := runs_foldlM_cons.1 h
    obtain ⟨items, first, hitems, -, hfirst, rfl⟩ := runs_appendOrdering_terms h1
    obtain ⟨rest, hrest, rfl⟩ := ih h2
    refine ⟨first ++ rest, .cons hitems hfirst hrest, ?_⟩
    rw [dropRepeats_append, List.append_assoc]

theorem runs_appendDefaultOrdering
    (h : (appendDefaultOrdering env subquery g emitted c).Runs b c' b') :
    ∃ candidates, OrderingTerms env subquery (defaultOrderings g emitted) b candidates b' ∧
      c' = { c with orderBy := c.orderBy ++ dropRepeats c.orderBy candidates } := by
  obtain ⟨ts, _, h1, h2⟩ := runs_bind.1 h
  obtain ⟨rfl, rfl⟩ := runs_pure.1 h2
  obtain ⟨candidates, hterms, rfl⟩ := runs_appendOrderings h1
  exact ⟨candidates, hterms, rfl⟩

/-! ## Plans -/

/-- The order terms of the plan of a query: those that the query asks for, and after them those that
the schema adds. -/
structure QueryPlan.Ordered (env : Surroundings) (q : Query) (p : QueryPlan)
    (asked added : List OrderTerm) : Prop where
  orderBy : p.clauses.orderBy = asked ++ added
  /-- The terms of the query are those of its `ORDER BY` clause. The orderings of the schema are
  resolved after them, and terms that repeat one are left out. -/
  terms : ∃ c b b₁ b₂ b' os candidates,
    (resolveClauses env (resolveSubquery env env.config.maxSubqueryDepth) p.graph 0
      q.toClauseTexts).Runs b c b₂ ∧
    (resolveList env .orderBy 0 (resolveOrderItem env
      (resolveSubquery env env.config.maxSubqueryDepth)
      ⟨c.named?, some p.graph.root.id⟩ false) q.orderBy).Runs b₁ asked b₂ ∧
    p.graph.Orderings p.emitted os ∧
    OrderingTerms env (resolveSubquery env env.config.maxSubqueryDepth) os b₂ candidates b' ∧
    added = dropRepeats asked candidates
  explicit : ∀ t ∈ asked, t.implicit = false
  implicit : ∀ t ∈ added, t.implicit = true
  /-- The schema binds no values. -/
  ordinals : ∀ t ∈ added, t.expr.ordinals = []

namespace Sample

/-- Articles and their tags, which come in an order of their own for every article. -/
def ranked : Provider := fun name =>
  if name = "Article" then .ok {
    name := "Article", table := "articles"
    columns := [⟨"id", none, "integer", true⟩, ⟨"rank", none, "integer", false⟩]
    relations := [⟨"tags", .manyToMany, "Tag", "article_id", "tag_id", some "ArticleTag", none,
      some "position", false, false⟩]
    inheritance := none, orderBy := some "rank, id" }
  else if name = "Tag" then .ok {
    name := "Tag", table := "tags"
    columns := [⟨"id", none, "integer", true⟩, ⟨"name", none, "text", false⟩]
    relations := [], inheritance := none, orderBy := some "name" }
  else if name = "ArticleTag" then .ok {
    name := "ArticleTag", table := "article_tags"
    columns := [⟨"article_id", none, "integer", true⟩, ⟨"tag_id", none, "integer", true⟩,
      ⟨"position", none, "integer", false⟩]
    relations := [], inheritance := none, orderBy := none }
  else .error (.unknownComponent name)

end Sample

/-- In every plan the orderings of the schema come after those of the query, in the order in which
joins are written. -/
theorem plan_ordered (h : plan env T = .ok p) : ∃ q asked added,
    Query.parse env.config.scanner T = .ok q ∧ p.Ordered env q asked added := by
  obtain ⟨q, hparse, hrun⟩ := Except.bind_eq_ok.1 h
  have hrun : (planQuery env q).Runs {} p ((planQuery env q).run {}).2 := Prod.ext hrun rfl
  obtain ⟨graph, c, c', b₁, emitted, hquery, hemitted, horder, rfl⟩ := runs_planQuery hrun
  have hread := Query.parse_spec hparse
  have hyields := resolveSubquery_yields env env.config.maxSubqueryDepth
  have hres := resolveQuery_spec hyields .empty rfl (.refl hread.balanced) hread hquery
  obtain ⟨-, ⟨added, hadded, himplicit⟩, -⟩ :=
    appendDefaultOrdering_spec hyields hres.grows.sound hres.sound horder
  obtain ⟨b₀, hsource, hclauses⟩ := runs_resolveQuery hquery
  obtain ⟨-, -, -, b₂, -, -, -, -, hasked⟩ := runs_resolveClauses hclauses
  obtain ⟨candidates, hterms, rfl⟩ := runs_appendDefaultOrdering horder
  obtain rfl : dropRepeats c.orderBy candidates = added := List.append_cancel_left hadded
  have hin : emitted ⊆ graph.aliases :=
    hemitted ▸ (emittedAliases_sublist hres.sound.declared).subset
  refine ⟨q, c.orderBy, dropRepeats c.orderBy candidates, hparse, rfl,
    ⟨c, b₀, b₂, b₁, _, _, candidates, hclauses, hasked,
      (resolveFrom_hops hsource).orderings hres.sound.nodup hin, hterms, rfl⟩,
    hres.explicit, fun t ht => (himplicit t ht).ordinary.implicit_eq, fun t ht => ?_⟩
  obtain ⟨ordering, fs, hcount, he⟩ := (himplicit t ht).origin
  exact he.ordinals_eq_nil hcount

/-- The tags ask to be ordered by their names, as the query does already. -/
theorem plan_ordered_ranked : ∃ p,
    plan ⟨Sample.ranked, {}⟩ "SELECT a.id FROM Article a JOIN a.tags t ORDER BY t.name DESC".toList =
      .ok p ∧
    p.clauses.orderBy.map (fun t => (t.expr.pieces, t.implicit)) =
      [([.column 1 "name"], false), ([.column 2 "position"], true), ([.column 0 "rank"], true),
        ([.column 0 "id"], true)] ∧
    ∃ q asked added, p.Ordered ⟨Sample.ranked, {}⟩ q asked added := by
  obtain ⟨p, hp, hterms⟩ : ∃ p, plan ⟨Sample.ranked, {}⟩
      "SELECT a.id FROM Article a JOIN a.tags t ORDER BY t.name DESC".toList = .ok p ∧
      p.clauses.orderBy.map (fun t => (t.expr.pieces, t.implicit)) =
        [([.column 1 "name"], false), ([.column 2 "position"], true), ([.column 0 "rank"], true),
          ([.column 0 "id"], true)] := by decide +kernel
  obtain ⟨q, asked, added, -, hordered⟩ := plan_ordered hp
  exact ⟨p, hp, hterms, q, asked, added, hordered⟩

end ObjectQuery
