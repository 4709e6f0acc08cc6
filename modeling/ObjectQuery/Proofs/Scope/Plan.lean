import ObjectQuery.Proofs.Scope.Completion
import ObjectQuery.Sql.Limited

/-! # What plans read

A plan reads joins that are written, each after those that it depends on, and so do the queries
inside it. The default orderings apart, this holds whatever the schema says; with them it holds when
the orderings of the schema name columns without aliases.

* `planQuery_over`: what is known of a plan;
* `PlanOver.inScope_asked`, `PlanOver.inScope`: what it asks for, and all of it, is in scope. -/

namespace ObjectQuery

open Resolve

variable {env : Surroundings} {b b' : Bindings} {graph : JoinGraph} {c : ClauseSet} {q : Query}
  {a : AliasId} {n : Nat} {p : QueryPlan} {T : Text} {visible fresh P : Set AliasId}
  {ts : List OrderTerm} {emitted : List AliasId}

/-! ## Order terms -/

/-- Order terms read what they read; the other clauses do not change. -/
theorem ClauseSet.mem_reads_reorder : a ∈ ({ c with orderBy := ts } : ClauseSet).reads ↔
    a ∈ ({ c with orderBy := [] } : ClauseSet).reads ∨ ∃ t ∈ ts, a ∈ t.expr.reads := by
  simp only [mem_reads, rowExprs, selectExprs, laterExprs, List.mem_append, List.mem_map,
    List.map_nil, List.append_nil, or_and_right, exists_or, exists_exists_and_eq_and, or_assoc]

theorem mem_queryExprs_reorder {e : Expr} (hts : ∀ t ∈ ts, t ∈ c.orderBy)
    (he : e ∈ queryExprs graph { c with orderBy := ts }) : e ∈ queryExprs graph c := by
  simp only [queryExprs, ClauseSet.rowExprs, ClauseSet.selectExprs, ClauseSet.laterExprs,
    List.mem_append, List.mem_map] at he ⊢
  exact he.imp_left (Or.imp_right (Or.imp_right (Exists.imp fun t => And.imp_left (hts t))))

theorem ClausesOver.reorder (h : ClausesOver visible graph fresh c)
    (hts : ∀ t ∈ ts, t ∈ c.orderBy ∨ t.expr.Over visible (fun _ _ => False) fresh) :
    ClausesOver visible graph fresh { c with orderBy := ts } := by
  refine ⟨h.select, h.filter, fun e he => ?_⟩
  rcases List.mem_append.1 he with he | he
  · exact h.later e (List.mem_append_left _ he)
  · obtain ⟨t, ht, rfl⟩ := List.mem_map.1 he
    rcases hts t ht with ht | ht
    · exact h.later _ (List.mem_append_right _ (List.mem_map_of_mem ht))
    · exact ht.mono le_rfl (fun _ _ h => h.elim) le_rfl

/-! ## Plans -/

/-- The clauses that the query asks for; the orderings of the schema are left out. -/
def QueryPlan.asked (p : QueryPlan) : ClauseSet := { p.clauses with orderBy := p.explicitOrder }

/-- The names of a plan with `n` occurrences of tables. -/
structure PlanNamed (n : Nat) (p : QueryPlan) : Prop where
  length_eq : p.aliases.length = n
  nodup : p.aliases.Nodup
  named : ∀ a < n, p.aliases.get a ≠ ""
  numbered : ∀ name ∈ p.aliases, ∃ c k, c.isAlpha = true ∧ name = numberedName c k
  shadow : ∀ names ∈ p.shadowAliases, Resolver.Renames p.aliases p.emitted p.aliases names

/-- What is known of a plan with `n` occurrences of tables. -/
structure PlanOver (env : Surroundings) (n : Nat) (p : QueryPlan) : Prop extends PlanNamed n p where
  ids : ∀ a ∈ p.graph.aliases, a < n
  joins : ∀ m ∈ p.graph.nodes, m.Fits env p.graph ∅ (p.graph.freshIn 0 n)
  clauses : ClausesOver {a | a ∈ p.graph.aliases} p.graph (p.graph.freshIn 0 n) p.asked
  emits : p.graph.Emits p.asked.reads p.emitted
  ordered : ∀ t ∈ p.clauses.orderBy, t ∈ p.explicitOrder ∨
    t.expr.Over Set.univ (fun _ _ => False) (p.graph.freshIn 0 n)
  orderings : env.BareOrderings → ∀ t ∈ p.clauses.orderBy, t ∈ p.explicitOrder ∨
    t.expr.Over {a | a ∈ p.emitted} (fun _ _ => False) (p.graph.freshIn 0 n)
  limited : p.shadowAliases.isSome = true → p.clauses.isLimited = true

theorem AliasScope.bound_nil : AliasScope.bound [] = ∅ :=
  Set.eq_empty_iff_forall_notMem.2 fun _ ⟨_, hscope, _⟩ => nomatch hscope

theorem emittedAliases_emits {config : Config} (hnodup : graph.aliases.Nodup)
    (hd : graph.nodes.Pairwise fun m n => n.id ∉ m.dependsOn) (hroot : graph.root.role = .root) :
    graph.Emits c.reads (emittedAliases config graph c) := by
  rw [emittedAliases]
  split
  · have hessential : JoinGraph.isEssential graph.root = true := by
      simp [JoinGraph.isEssential, hroot]
    refine .ofClosed hnodup hd JoinGraph.retained_subset JoinGraph.retained_closed
      (JoinGraph.mem_retained List.mem_cons_self (.inl hessential)) fun a ha hg => ?_
    obtain ⟨m, hm, rfl⟩ := List.mem_map.1 hg
    exact JoinGraph.mem_retained hm (.inr ha)
  · exact .ofClosed hnodup hd (fun a ha => AliasSet.mem_ofList.1 ha)
      (fun _ _ _ a _ hg => AliasSet.mem_ofList.2 hg)
      (AliasSet.mem_ofList.2 JoinGraph.root_mem_aliases) fun a _ hg => AliasSet.mem_ofList.2 hg

/-- Joins are written in the order they are declared. -/
theorem emittedAliases_sublist {config : Config}
    (hd : graph.nodes.Pairwise fun m n => n.id ∉ m.dependsOn) :
    (emittedAliases config graph c).Sublist graph.aliases := by
  rw [emittedAliases, JoinGraph.emissionOrder_eq hd]
  · exact List.filter_sublist.map _
  · split
    · exact JoinGraph.retained_subset
    · exact fun a ha => AliasSet.mem_ofList.1 ha

theorem QueryPlan.asked_eq {items : List SelectItem}
    (h : p.clauses = { c with select := items, orderBy := ts })
    (hts : ts.filter (!·.implicit) = c.orderBy) : p.asked = { c with select := items } := by
  rw [asked, explicitOrder, h, hts]

theorem PlanNamed.of_distinct (hd : b.resolver.Distinct) (hnames : p.aliases = b.resolver.names)
    (hshadow : ∀ names ∈ p.shadowAliases, names = (b.resolver.shadow p.emitted).1)
    (hnodup : p.emitted.Nodup) (hlt : ∀ a ∈ p.emitted, a < b.size) : PlanNamed b.size p := by
  refine ⟨?_, hnames ▸ hd.nodup, fun a ha => hnames ▸ hd.get_ne_empty ha, fun name hname => ?_,
    fun names hs => ?_⟩
  · rw [hnames]
    simp [Resolver.names, Bindings.size]
  · obtain ⟨c, k, hc, he, -⟩ := hd.covers name (hnames ▸ hname)
    exact ⟨c, k, hc, he⟩
  · rw [hnames, hshadow names hs]
    exact hd.shadow hnodup hlt

/-- The completed select list of a plan adds columns of aliases that the clauses read, and of those
whose records hold theirs. -/
theorem completed_reselects {within : Set AliasId} (hup : graph.ClosedUpward within)
    (hc : ∀ a ∈ c.reads, a ∈ within) (names : AliasNames) (emitted : List AliasId)
    (ts : List OrderTerm) :
    Reselects within c.select
      (nameOutputs names (completeSelection graph emitted { c with orderBy := ts })).select := by
  have hcompleted : Reselects within c.select
      (completeSelection graph emitted { c with orderBy := ts }).select :=
    completeSelection_reselects (mem_requiredFields hup hc)
  rw [← Set.union_empty within]
  exact hcompleted.trans (nameOutputsFrom_reselects [] _)

theorem planQuery_over (hparse : Query.parse env.config.scanner T = .ok q)
    (h : (planQuery env q).Runs {} p b') : ∃ n, PlanOver env n p := by
  have hread := Query.parse_spec hparse
  have hnests := resolveSubquery_nests env env.config.maxSubqueryDepth
  have hyields := resolveSubquery_yields env env.config.maxSubqueryDepth
  obtain ⟨graph, c, c', b₁, emitted, h1, hemitted, h2, rfl⟩ := runs_planQuery h
  have hres := resolveQuery_spec hyields .empty rfl (.refl hread.balanced) hread h1
  have hover : QueryOver env [] 0 b₁ graph c := resolveQuery_over hnests .empty rfl h1
  have hjoins := hover.joins.nodes
  have hclauses := hover.clauses
  rw [AliasScope.bound_nil] at hjoins
  rw [AliasScope.bound_nil, Set.union_empty] at hclauses
  have hemits : graph.Emits c.reads emitted :=
    hemitted ▸ emittedAliases_emits hres.sound.nodup hres.sound.declared hover.joins.root
  have hreads : ∀ a ∈ c.reads, a ∈ emitted := fun a ha =>
    hemits.reads a ha (hclauses.reads JoinGraph.root_mem_aliases ha)
  obtain ⟨hkeeps, hordered, hbare⟩ := appendDefaultOrdering_over hnests hover.joins.tidy hemits
    hjoins hres.origin.graph.derived h2
  obtain ⟨-, happ, hc'⟩ := appendDefaultOrdering_spec hyields hres.grows.sound hres.sound h2
  have hexplicit : c'.orderBy.filter (!·.implicit) = c.orderBy :=
    happ.filter_explicit.trans (List.filter_eq_self.2 fun t ht => by simp [hres.explicit t ht])
  generalize c'.orderBy = ts at hc' hexplicit hordered hbare
  subst hc'
  have hfresh : graph.freshIn 0 b₁.size ⊆ graph.freshIn 0 b'.size := fun a ha =>
    ⟨Set.Ico_subset_Ico_right hkeeps.size_le ha.1, ha.2⟩
  have hlt : ∀ a ∈ graph.aliases, a < b'.size := fun a ha =>
    Nat.lt_of_lt_of_le (hover.joins.ids a ha).2 hkeeps.size_le
  have hselect :=
    completed_reselects (hemits.closedUpward hjoins) hreads b'.resolver.names emitted ts
  have hadded {visible : Set AliasId} (t : OrderTerm) (h : t ∈ c.orderBy ∨
      t.expr.Over visible (fun _ _ => False) (Set.Ico b₁.size b'.size)) :
      t ∈ ts.filter (!·.implicit) ∨
        t.expr.Over visible (fun _ _ => False) (graph.freshIn 0 b'.size) :=
    h.imp (fun ht => by rwa [hexplicit])
      fun ht => ht.mono le_rfl (fun _ _ h => h) (hover.joins.later.trans fun a ha => ha)
  refine ⟨b'.size, ?named, hlt, ?joins, ?clauses, ?emits, fun t ht => hadded t (hordered t ht),
    fun h t ht => hadded t (hbare h t ht), ?limited⟩
  case named =>
    refine .of_distinct hkeeps.tidy.distinct rfl (fun names hs => ?_) hemits.nodup fun a ha =>
      hlt a (hemits.subset a ha)
    dsimp only at hs
    split at hs
    · exact (Option.some_inj.1 hs).symm
    · cases hs
  case joins => exact fun m hm => (hjoins m hm).mono (fun _ ha => ha) (fun _ hs => hs) hfresh
  case clauses =>
    rw [QueryPlan.asked_eq rfl hexplicit]
    exact (hclauses.reselect hselect hemits.subset).mono hfresh
  case emits =>
    rw [QueryPlan.asked_eq rfl hexplicit]
    exact { hemits with reads := fun a ha _ => (hselect.reads ha).elim id (hreads a) }
  case limited =>
    intro hs
    dsimp only at hs
    split at hs
    · rename_i hfan
      exact (Bool.and_eq_true_iff.1 hfan).2
    · cases hs

/-- What is known of the plan of a text. -/
theorem plan_over (h : plan env T = .ok p) : ∃ n, PlanOver env n p := by
  obtain ⟨q, hparse, h⟩ := Except.bind_eq_ok.1 h
  have hrun : (planQuery env q).Runs {} p ((planQuery env q).run {}).2 := Prod.ext h rfl
  exact planQuery_over hparse hrun

/-! ## Scopes of plans -/

/-- With those order terms that the query asks for or that read joins that are written, a plan is in
scope. -/
theorem PlanOver.inScope_reorder (h : PlanOver env n p)
    (hs : QuerySound env env.origin.Any p.graph p.clauses) (hsub : ∀ t ∈ ts, t ∈ p.clauses.orderBy)
    (hts : ∀ t ∈ ts, t ∈ p.explicitOrder ∨
      t.expr.Over {a | a ∈ p.emitted} (fun _ _ => False) (p.graph.freshIn 0 n))
    (hP : ∀ a < n, a ∈ P) :
    InScope P ∅ p.graph { p.clauses with orderBy := ts } p.emitted := by
  have hemitted : {a | a ∈ p.emitted} ⊆ {a | a ∈ p.graph.aliases} := h.emits.subset
  have hasked (a) (ha : a ∈ p.asked.reads) : a ∈ p.emitted :=
    h.emits.reads a ha (h.clauses.reads JoinGraph.root_mem_aliases ha)
  have hclauses : ClausesOver {a | a ∈ p.graph.aliases} p.graph (p.graph.freshIn 0 n)
      { p.clauses with orderBy := ts } :=
    h.clauses.reorder fun t ht => (hts t ht).imp_right fun ht =>
      ht.mono hemitted (fun _ _ h => h) le_rfl
  have hreads (a) (ha : a ∈ ({ p.clauses with orderBy := ts } : ClauseSet).reads) :
      a ∈ p.emitted := by
    rcases ClauseSet.mem_reads_reorder.1 ha with ha | ⟨t, ht, ha⟩
    · exact hasked a (ClauseSet.mem_reads_reorder.2 (.inl ha))
    · rcases hts t ht with ht | ht
      · exact hasked a (ClauseSet.mem_reads_reorder.2 (.inr ⟨t, ht, ha⟩))
      · exact ht.reads ha
  have hformed := hclauses.formed fun m hm => ((h.joins m hm).exprs · · |>.mono
    (by rw [Set.union_empty]) (fun _ _ h => h) le_rfl)
  have hnested : QueryFormed (fun r => ∀ visible : Set AliasId, (∀ a ∈ r.outerReads, a ∈ visible) →
      InScope P visible r.graph r.clauses r.emitted) p.graph { p.clauses with orderBy := ts } := by
    refine { hformed with nested := fun e he r hr visible hv => ?_ }
    have hany : (SubqueryFrom env env.config.maxSubqueryDepth).Any r :=
      (hs.expr (mem_queryExprs_reorder hsub he)).pieces _ hr
    exact ((hformed.nested e he r hr).mono fun a ha => hP a ha.1.2).inScope hany visible hv
  refine hnested.inScope h.emits.root h.emits.subset
    (fun a ha => hP a (h.ids a (h.emits.subset a ha))) (fun a ha => ?_) (fun a ha _ => hreads a ha)
    h.emits.before
  obtain ⟨ha, hg⟩ := Subquery.mem_outerReads.1 ha
  refine absurd ?_ hg
  rcases ha with ha | ha
  · exact h.emits.subset a (hreads a ha)
  · obtain ⟨m, hm, ha⟩ := JoinGraph.mem_dependsOn.1 ha
    exact ((h.joins m hm).dependsOn ha).resolve_right id

/-- What the query asks for is in scope, whatever the schema orders by. -/
theorem PlanOver.inScope_asked (h : PlanOver env n p)
    (hs : QuerySound env env.origin.Any p.graph p.clauses) (hP : ∀ a < n, a ∈ P) :
    InScope P ∅ p.graph p.asked p.emitted :=
  h.inScope_reorder hs (fun _ ht => (List.mem_filter.1 ht).1) (fun _ ht => .inl ht) hP

/-- A plan is in scope when the orderings of the schema name columns without aliases. -/
theorem PlanOver.inScope (h : PlanOver env n p)
    (hs : QuerySound env env.origin.Any p.graph p.clauses) (hbare : env.BareOrderings)
    (hP : ∀ a < n, a ∈ P) : InScope P ∅ p.graph p.clauses p.emitted := by
  have hself : { p.clauses with orderBy := p.clauses.orderBy } = p.clauses := by
    cases p.clauses
    rfl
  rw [← hself]
  exact h.inScope_reorder hs (fun _ ht => ht) (h.orderings hbare) hP

end ObjectQuery
