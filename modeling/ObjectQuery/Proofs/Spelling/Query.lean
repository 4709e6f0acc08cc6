import ObjectQuery.Proofs.Scope.Plan
import ObjectQuery.Proofs.Spelling.Clauses

/-! # How resolved queries are spelled

A query is placed and spelled well within the queries around it, and so are the queries inside it, by
induction on the levels of nesting. For a plan the joins, and the select list before it is completed,
are known besides (`PlanPlaced`).

* `resolveQuery_spelled`, `resolveSubquery_spells`: queries and subqueries;
* `plan_placed`: plans. -/

namespace ObjectQuery

open Resolve

variable {env : Surroundings} {ok : Spelling} {subquery : ResolveSubquery} {param : Nat}
  {b b' : Bindings} {graph : JoinGraph} {c : ClauseSet} {q : Query} {p : QueryPlan} {T inner : Text}

/-! ## Queries -/

/-- What is known of the joins and clauses of a query. -/
structure QueryPlaced (env : Surroundings) (ok : Spelling) (b : Bindings) (graph : JoinGraph)
    (c : ClauseSet) : Prop where
  joins : graph.Placed env ok b
  clauses : ClausesSpelled b.component? ok
    ({a | a ∈ graph.aliases} ∪ AliasScope.bound b.resolver.outer) c

theorem resolveQuery_spelled (hok : env.Spells ok) (hsub : subquery.Spells env ok)
    (hb : b.Recorded env) (hscope : b.resolver.scope = [])
    (hq : q.Read env.config.scanner inner)
    (h : (resolveQuery env subquery param q).Runs b (graph, c) b') :
    QueryPlaced env ok b' graph c ∧ b.Retains env b' := by
  obtain ⟨b₁, h1, h2⟩ := runs_resolveQuery h
  obtain ⟨clause, -, hread⟩ := hq.source
  obtain ⟨hg, hretains⟩ := resolveFrom_placed hok hsub hb hscope
    (fun j hj => (hread.joins j hj).named) h1
  obtain ⟨hsteady, hc⟩ := resolveClauses_spelled hok hsub hg.recorded hg.sees hg.shown h2
  rw [← hsteady.outer_eq] at hc
  exact ⟨⟨hg.steady hsteady, hc⟩, hretains.trans hsteady.toRetains⟩

theorem resolveSubquery_spells (hok : env.Spells ok) (levels : Nat) :
    (resolveSubquery env levels).Spells env ok := by
  induction levels with
  | zero => exact fun _ _ _ _ _ _ _ h => absurd h not_runs_malformed
  | succ levels ih =>
    intro inner param clause b b' s hb h
    obtain ⟨q, graph, c, b₁, hparse, hrun, rfl, rfl⟩ := runs_resolveSubquery h
    obtain ⟨⟨hg, hc⟩, hretains⟩ :=
      resolveQuery_spelled hok ih hb.pushScope rfl (Query.parse_spec hparse) hrun
    refine ⟨hretains.popScope hb, ?_⟩
    -- the scopes around the subquery are those that are seen where it stands
    have hsees : b.Sees = AliasScope.bound b₁.resolver.outer := by
      rw [hretains.outer_eq]
      rfl
    have hkeys : ClausesSpelled b₁.component? ok
        ({a | a ∈ graph.aliases} ∪ AliasScope.bound b₁.resolver.outer)
        (if q.select.isNone then selectKeys graph c else c) := by
      split
      · exact hc.selectKeys hg.shown
      · exact hc
    rw [hsees]
    exact (hkeys.nameOutputs _).spelledQuery hok hg

/-- The clauses of a query that stands alone read no bridges. -/
theorem resolveQuery_reads (hok : env.Spells ok) (hsub : subquery.Spells env ok)
    (hnests : subquery.Nests env) (hq : q.Read env.config.scanner inner)
    (h : (resolveQuery env subquery param q).Runs {} (graph, c) b') :
    ∀ a ∈ c.reads, a ∈ graph.records := by
  obtain ⟨b₁, h1, h2⟩ := runs_resolveQuery h
  obtain ⟨clause, -, hread⟩ := hq.source
  obtain ⟨hg, hretains⟩ := resolveFrom_placed hok hsub .empty rfl
    (fun j hj => (hread.joins j hj).named) h1
  have hseen : b₁.Sees ⊆ {a | a ∈ graph.records} := by
    have hseen := hg.sees_records
    rwa [hretains.outer_eq, AliasScope.bound_nil, Set.union_empty] at hseen
  have hroot : graph.root.id ∈ {a | a ∈ graph.records} :=
    JoinGraph.mem_records.2 ⟨_, List.mem_cons_self, hg.rooted.root, rfl⟩
  obtain ⟨-, hc⟩ := resolveClauses_over hnests (resolveFrom_over hnests .empty rfl h1).tidy hseen
    hroot (fun _ ha => ha) h2
  exact fun a ha => hc.reads hroot ha

theorem resolveQuery_select_ne_nil (hok : env.Spells ok) (hsub : subquery.Spells env ok)
    (hcols : ∀ component, env.Describes component → component.columns ≠ [])
    (hq : q.Read env.config.scanner inner)
    (h : (resolveQuery env subquery param q).Runs {} (graph, c) b') : c.select ≠ [] := by
  obtain ⟨b₁, h1, h2⟩ := runs_resolveQuery h
  obtain ⟨clause, -, hread⟩ := hq.source
  obtain ⟨hg, -⟩ := resolveFrom_placed hok hsub .empty rfl
    (fun j hj => (hread.joins j hj).named) h1
  exact resolveClauses_select_ne_nil hcols hg.recorded hg.shown hg.rooted.root h2

/-! ## Plans -/

/-- What is known of a plan: its joins hang under one another and are written in the order they are
declared, the clauses `c` are what it is made of before its orderings are appended and its select list
is completed, and its columns are spelled well. -/
structure PlanPlaced (env : Surroundings) (ok : Spelling) (b : Bindings) (c : ClauseSet)
    (p : QueryPlan) : Prop where
  joins : p.graph.Placed env ok b
  written : p.emitted.Sublist p.graph.aliases
  nonempty : (∀ component, env.Describes component → component.columns ≠ []) → c.select ≠ []
  select : ∀ i ∈ p.clauses.select, i.Spelled b.component? ok {a | a ∈ p.graph.aliases}
  reads : ∀ a ∈ c.reads, a ∈ p.graph.records
  completed : ∃ ts, p.clauses =
    nameOutputs p.aliases (completeSelection p.graph p.emitted { c with orderBy := ts })
  spelled : SpelledQuery b.component? ok ∅ p.graph p.clauses

theorem planQuery_placed (hok : env.Spells ok) (hparse : Query.parse env.config.scanner T = .ok q)
    (h : (planQuery env q).Runs {} p b') : ∃ c, PlanPlaced env ok b' c p := by
  have hread := Query.parse_spec hparse
  have hsub := resolveSubquery_spells hok env.config.maxSubqueryDepth
  have hnests := resolveSubquery_nests env env.config.maxSubqueryDepth
  obtain ⟨graph, c, c', b₁, emitted, h1, hemitted, h2, rfl⟩ := runs_planQuery h
  have hdeclared := (resolveQuery_spec (resolveSubquery_yields env env.config.maxSubqueryDepth)
    .empty rfl (.refl hread.balanced) hread h1).sound.declared
  obtain ⟨⟨hg, hc⟩, hretains⟩ := resolveQuery_spelled hok hsub .empty rfl hread h1
  have hreads := resolveQuery_reads hok hsub hnests hread h1
  obtain ⟨hsteady, hc'⟩ :=
    appendDefaultOrdering_spelled hok hsub hg.recorded hg.sees hg.shown hc h2
  have hg' := hg.steady hsteady
  have houter : b'.resolver.outer = [] := hsteady.outer_eq.trans hretains.outer_eq
  rw [← hsteady.outer_eq] at hc'
  obtain ⟨ts, b₂, -, h4⟩ := runs_bind.1 h2
  obtain ⟨rfl, rfl⟩ := runs_pure.1 h4
  have hclauses := (hc'.completeSelection emitted hg'.shown).nameOutputs b₂.resolver.names
  have hspelled := hclauses.spelledQuery hok hg'
  rw [houter, AliasScope.bound_nil] at hspelled
  rw [houter, AliasScope.bound_nil, Set.union_empty] at hclauses
  exact ⟨c, hg', hemitted ▸ emittedAliases_sublist hdeclared,
    fun hcols => resolveQuery_select_ne_nil hok hsub hcols hread h1, hclauses.select, hreads,
    ⟨ts, rfl⟩, hspelled⟩

/-- What is known of the plan of a text. -/
theorem plan_placed (hok : env.Spells ok) (h : plan env T = .ok p) :
    ∃ b c, PlanPlaced env ok b c p := by
  obtain ⟨q, hparse, h⟩ := Except.bind_eq_ok.1 h
  have hrun : (planQuery env q).Runs {} p ((planQuery env q).run {}).2 := Prod.ext h rfl
  obtain ⟨c, hp⟩ := planQuery_placed hok hparse hrun
  exact ⟨_, c, hp⟩

end ObjectQuery
