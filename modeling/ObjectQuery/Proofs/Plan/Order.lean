import ObjectQuery.Proofs.Plan.Pruning
import ObjectQuery.Proofs.Resolve.Hops

/-! # Joins are declared in order

What holds of every graph that a `FROM` clause is resolved to holds of all graphs of a plan, at all
levels of nesting (`HasGraph.resolved`). They are declared in an order in which every node comes
after those it depends on, so that emitting joins never meets a cycle (`Drains`).

* `JoinGraph.drains`, `JoinGraph.emissionOrder_filter`: emitting the joins of such a graph;
* `plan_inOrder`: the graphs of a plan. -/

namespace ObjectQuery

open Resolve

variable {env : Surroundings} {T : Text} {p : QueryPlan} {g h : JoinGraph} {c : ClauseSet}
  {b b' : Bindings} {P : JoinGraph → Prop} {keep : AliasSet} {n : JoinNode}
  {pre post pending : List JoinNode} {a : AliasId}

/-! ## All graphs of a plan -/

/-- What holds of the graph of a query and of those of the queries inside it holds of all. -/
theorem HasGraph.all {Q : Subquery → Prop} (hh : HasGraph g c h) (hs : QuerySound env Q g c)
    (hown : P g) (hQ : ∀ s, Q s → ∀ h, HasGraph s.graph s.clauses h → P h) : P h := by
  cases hh with
  | own => exact hown
  | nested he hq hg => exact hQ _ ((hs.expr he).pieces _ hq) h hg

/-- All graphs of a subquery have a property that resolving a `FROM` clause establishes. -/
theorem resolveSubquery_graphs
    (hP : ∀ subquery param clause b g b', (resolveFrom env subquery param clause).Runs b g b' → P g)
    (levels : Nat) : (resolveSubquery env levels).Yields env
      fun _ _ _ _ s => ∀ h, HasGraph s.graph s.clauses h → P h := by
  induction levels with
  | zero => exact fun _ _ _ _ _ _ _ _ _ _ h => absurd h not_runs_malformed
  | succ levels ih =>
    intro T off param inner clause b b' s hb hs hrun
    obtain ⟨hext, hbelow, hexplicit, -, q, -, hq⟩ := resolveSubquery_spec ih hb hs hrun
    refine ⟨hext, fun h hh => ?_, hbelow⟩
    have hsound := hq.sound_of_explicit hexplicit
    obtain ⟨_, graph, c, _, -, hquery, -, rfl⟩ := runs_resolveSubquery hrun
    obtain ⟨_, hfrom, -⟩ := runs_resolveQuery hquery
    apply hh.all hsound (hP _ _ _ _ _ _ hfrom)
    rintro s ⟨T, param, off, inner, hs⟩
    exact hs

/-- All graphs of a plan have a property that resolving a `FROM` clause establishes. -/
theorem HasGraph.resolved (hg : HasGraph p.graph p.clauses g) (h : plan env T = .ok p)
    (hP : ∀ subquery param clause b g b',
      (resolveFrom env subquery param clause).Runs b g b' → P g) : P g := by
  obtain ⟨q, hparse, hrun⟩ := Except.bind_eq_ok.1 h
  have hrun : (planQuery env q).Runs {} p ((planQuery env q).run {}).2 := Prod.ext hrun rfl
  have hread := Query.parse_spec hparse
  have hsub := resolveSubquery_graphs hP env.config.maxSubqueryDepth
  obtain ⟨graph, c, c', b₁, emitted, h1, -, h2, rfl⟩ := runs_planQuery hrun
  have hres := resolveQuery_spec hsub .empty rfl (.refl hread.balanced) hread h1
  obtain ⟨-, happ, hc'⟩ := appendDefaultOrdering_spec hsub hres.grows.sound hres.sound h2
  obtain ⟨hquery, himplicit⟩ := hres.completed happ hc' ((planQuery env q).run {}).2.resolver.names
  have hsound := hquery.sound fun t ht hi => by
    obtain ⟨ordering, g, -, he⟩ := himplicit t ht hi
    exact he.sound
  obtain ⟨_, hfrom, -⟩ := runs_resolveQuery h1
  apply hg.all hsound (hP _ _ _ _ _ _ hfrom)
  rintro s ⟨T, param, off, inner, hs⟩
  exact hs

/-! ## Emission without cycles -/

namespace JoinGraph

/-- Emitting the pending nodes, a node is ready at every step until none is left. -/
inductive Drains (keep : AliasSet) : (emitted : List AliasId) → (pending : List JoinNode) → Prop
  | done {emitted : List AliasId} : Drains keep emitted []
  | step {emitted : List AliasId} {pending rest : List JoinNode} {n : JoinNode}
    (hready : takeReady keep emitted pending = some (n, rest))
    (hrest : Drains keep (emitted ++ [n.id]) rest) : Drains keep emitted pending

/-- The first pending node is always ready when no node is joined on a later one. -/
theorem drains (pre : List JoinNode)
    (hd : (pre ++ pending).Pairwise fun m n => n.id ∉ m.dependsOn)
    (hk : ∀ n ∈ pending, ∀ a ∈ n.dependsOn, a ∈ keep → a ∈ (pre ++ pending).map (·.id)) :
    Drains keep (pre.map (·.id)) pending := by
  induction pending generalizing pre with
  | nil => exact .done
  | cons n pending ih =>
    have hn : ∀ m ∈ pending, m.id ∉ n.dependsOn :=
      (List.pairwise_cons.1 (List.pairwise_append.1 hd).2.1).1
    have hready : isReady keep (pre.map (·.id)) n = true :=
      isReady_of_before hn (hk n List.mem_cons_self)
    have hsplit : pre ++ n :: pending = pre ++ [n] ++ pending := by simp
    have htake : takeReady keep (pre.map (·.id)) (n :: pending) = some (n, pending) := by
      rw [takeReady, if_pos hready]
    apply Drains.step htake
    rw [hsplit] at hd hk
    have := ih (pre ++ [n]) hd fun m hm => hk m (List.mem_cons_of_mem _ hm)
    rwa [List.map_append] at this

theorem drains_nodes (hd : g.nodes.Pairwise fun m n => n.id ∉ m.dependsOn)
    (hk : ∀ a ∈ keep, a ∈ g.aliases) :
    Drains keep [] (g.nodes.filter fun n => decide (n.id ∈ keep)) := by
  apply drains [] (hd.sublist List.filter_sublist)
  intro n _ a _ ha
  obtain ⟨m, hm, rfl⟩ := List.mem_map.1 (hk a ha)
  exact List.mem_map_of_mem (List.mem_filter.2 ⟨hm, decide_eq_true ha⟩)

theorem emissionOrder_filter (hd : g.nodes.Pairwise fun m n => n.id ∉ m.dependsOn)
    (hk : ∀ a ∈ keep, a ∈ g.aliases) :
    g.emissionOrder keep = g.aliases.filter fun a => decide (a ∈ keep) := by
  rw [emissionOrder_eq hd hk, aliases, List.filter_map]
  rfl

theorem head?_emissionOrder (hd : g.nodes.Pairwise fun m n => n.id ∉ m.dependsOn)
    (hk : ∀ a ∈ keep, a ∈ g.aliases) (hroot : g.root.id ∈ keep) :
    (g.emissionOrder keep).head? = some g.root.id := by
  rw [emissionOrder_eq hd hk, nodes, List.filter_cons, if_pos (decide_eq_true hroot)]
  rfl

/-- What a node depends on comes before it, as far as the graph has it. -/
theorem mem_pre_of_mem_dependsOn (hd : g.nodes.Pairwise fun m n => n.id ∉ m.dependsOn)
    (hsplit : g.nodes = pre ++ n :: post) (ha : a ∈ n.dependsOn) (hg : a ∈ g.aliases) :
    a ∈ pre.map (·.id) := by
  rw [hsplit] at hd
  rw [aliases, hsplit, List.map_append, List.map_cons, List.mem_append, List.mem_cons] at hg
  rcases hg with hg | rfl | hg
  · exact hg
  · exact absurd rfl (JoinNode.mem_dependsOn ha).1
  · obtain ⟨m, hm, rfl⟩ := List.mem_map.1 hg
    have hlater := (List.pairwise_cons.1 (List.pairwise_append.1 hd).2.1).1
    exact absurd ha (hlater m hm)

/-- The target of a many-to-many relation comes right after its bridge. -/
theorem Hopping.bridge_before {r : Relation} (h : g.Hopping) (hsplit : g.nodes = pre ++ n :: post)
    (hn : n.role = .target) (hr : n.relation = some r) (hkind : r.kind = .manyToMany) :
    ∃ before k, pre = before ++ [k] ∧ k.Bridges n := by
  cases pre with
  | nil =>
    obtain ⟨he, -⟩ := List.cons_eq_cons.1 hsplit
    have hrole := h.root.symm.trans (he ▸ hn)
    cases hrole
  | cons m pre =>
    obtain ⟨-, htail⟩ := List.cons_eq_cons.1 hsplit
    obtain ⟨before, k, rfl, hk⟩ := h.joins.bridge_before htail hn hr hkind
    exact ⟨m :: before, k, rfl, hk⟩

end JoinGraph

/-! ## The graphs of a plan -/

namespace Sample

/-- Articles and their tags, which a table of its own links. -/
def tagged : Provider := fun name =>
  if name = "Article" then .ok {
    name := "Article", table := "articles", columns := [⟨"id", none, "integer", true⟩]
    relations := [⟨"tags", .manyToMany, "Tag", "article_id", "tag_id", some "ArticleTag", none, none,
      false, false⟩]
    inheritance := none, orderBy := none }
  else if name = "Tag" then .ok {
    name := "Tag", table := "tags", columns := [⟨"id", none, "integer", true⟩]
    relations := [], inheritance := none, orderBy := none }
  else if name = "ArticleTag" then .ok {
    name := "ArticleTag", table := "article_tags"
    columns := [⟨"article_id", none, "integer", true⟩, ⟨"tag_id", none, "integer", true⟩]
    relations := [], inheritance := none, orderBy := none }
  else .error (.unknownComponent name)

end Sample

/-- Every graph of a plan, at any level of nesting, is declared in order: its occurrences are
different, its first node is its only root, every node comes after those that it depends on, and the
target of a many-to-many relation right after its bridge. So whatever is kept is emitted as it is
declared, the root first, and there is a node that is ready at every step. -/
theorem plan_inOrder (h : plan env T = .ok p) (hg : HasGraph p.graph p.clauses g) :
    g.aliases.Nodup ∧ g.root.role = .root ∧ (∀ n ∈ g.joins, n.role ≠ .root) ∧
    (∀ pre n post, g.nodes = pre ++ n :: post →
      (∀ a ∈ n.dependsOn, a ∈ g.aliases → a ∈ pre.map (·.id)) ∧
      (n.role = .target → ∀ r, n.relation = some r → r.kind = .manyToMany →
        ∃ before k, pre = before ++ [k] ∧ k.role = .bridge ∧ k.relation = some r ∧
          n.parent = some k.id)) ∧
    ∀ keep : AliasSet, (∀ a ∈ keep, a ∈ g.aliases) →
      g.emissionOrder keep = g.aliases.filter (fun a => decide (a ∈ keep)) ∧
      (g.root.id ∈ keep → (g.emissionOrder keep).head? = some g.root.id) ∧
      JoinGraph.Drains keep [] (g.nodes.filter fun n => decide (n.id ∈ keep)) := by
  have hp := plan_spec h
  obtain ⟨q, -, hq⟩ := hp.query
  obtain ⟨_, _, _, _, hfrom⟩ := hg.graphFrom hp.sound ⟨_, _, _, _, hq.graph⟩
  have hhops : g.Hopping := hg.resolved h fun _ _ _ _ _ _ => resolveFrom_hops
  have hd := hfrom.declared
  refine ⟨hfrom.nodup, hhops.root, fun n hn => hhops.joins.role_ne_root hn, ?_, ?_⟩
  · intro pre n post hsplit
    refine ⟨fun a ha hmem => JoinGraph.mem_pre_of_mem_dependsOn hd hsplit ha hmem, ?_⟩
    intro hn r hr hkind
    obtain ⟨before, k, hpre, hk⟩ := hhops.bridge_before hsplit hn hr hkind
    exact ⟨before, k, hpre, hk.role, hk.relation.trans hr, hk.parent⟩
  · intro keep hkeep
    exact ⟨JoinGraph.emissionOrder_filter hd hkeep, JoinGraph.head?_emissionOrder hd hkeep,
      JoinGraph.drains_nodes hd hkeep⟩

theorem plan_inOrder_bridged :
    ∃ p, plan ⟨Sample.tagged, {}⟩ "SELECT a.id FROM Article a JOIN a.tags t WITH t.id > a.id".toList =
        .ok p ∧
      p.graph.aliases = [0, 2, 1] ∧ p.graph.emissionOrder (AliasSet.ofList [0, 1]) = [0, 1] := by
  obtain ⟨p, hp, haliases⟩ : ∃ p, plan ⟨Sample.tagged, {}⟩
      "SELECT a.id FROM Article a JOIN a.tags t WITH t.id > a.id".toList = .ok p ∧
      p.graph.aliases = [0, 2, 1] := by decide +kernel
  refine ⟨p, hp, haliases, ?_⟩
  obtain ⟨-, -, -, -, hemits⟩ := plan_inOrder hp .own
  rw [(hemits (AliasSet.ofList [0, 1]) (by rw [haliases]; decide)).1, haliases]
  rfl

end ObjectQuery
