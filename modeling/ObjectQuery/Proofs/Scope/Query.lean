import ObjectQuery.Proofs.Resolve.Query
import ObjectQuery.Proofs.Scope.Clauses
import ObjectQuery.Proofs.Scope.From

/-! # What resolved queries read

A query reads the aliases of its own joins and those that the scopes around it bind (`QueryOver`);
so a subquery reads from the outside what is in scope where it stands, and the aliases that it
introduces are new.

* `resolveQuery_over`: the joins and clauses of a query;
* `Reselects`: select lists that are completed or named;
* `resolveSubquery_nests`: subqueries, by induction on the levels of nesting. -/

namespace ObjectQuery

open Resolve

variable {env : Surroundings} {subquery : ResolveSubquery} {param lo n : Nat} {b b' : Bindings}
  {graph : JoinGraph} {c : ClauseSet} {q : Query} {a : AliasId} {scopes : List AliasScope}
  {visible owners owners' fresh outer : Set AliasId} {items items' items'' : List SelectItem}
  {names : AliasNames} {emitted : List AliasId}

/-! ## Queries -/

/-- What is known of the joins and clauses of a query that is resolved within some scopes. -/
structure QueryOver (env : Surroundings) (scopes : List AliasScope) (lo : Nat) (b : Bindings)
    (graph : JoinGraph) (c : ClauseSet) : Prop where
  joins : graph.Over env scopes lo b
  clauses : ClausesOver ({a | a ∈ graph.aliases} ∪ AliasScope.bound scopes) graph
    (graph.freshIn lo b.size) c

theorem JoinNode.Fits.dependsOn {m : JoinNode} (h : m.Fits env graph outer fresh)
    (ha : a ∈ m.dependsOn) : a ∈ {a | a ∈ graph.aliases} ∪ outer := by
  obtain ⟨-, ha | ⟨e, he, ha⟩⟩ := JoinNode.mem_dependsOn_iff.1 ha
  · exact .inl (h.parent a ha)
  · exact (h.exprs e (m.mem_exprs_of_mem_conjuncts he)).reads ha

/-- A query reads from the outside what the scopes around it bind. -/
theorem QueryOver.outerReads (h : QueryOver env scopes lo b graph c)
    (ha : a ∈ (Subquery.mk graph c emitted).outerReads) : a ∈ AliasScope.bound scopes := by
  obtain ⟨ha, hg⟩ := Subquery.mem_outerReads.1 ha
  have hvisible : a ∈ {a | a ∈ graph.aliases} ∪ AliasScope.bound scopes := by
    rcases ha with ha | ha
    · exact h.clauses.reads (.inl JoinGraph.root_mem_aliases) ha
    · obtain ⟨m, hm, ha⟩ := JoinGraph.mem_dependsOn.1 ha
      exact (h.joins.nodes m hm).dependsOn ha
  exact hvisible.resolve_left hg

theorem QueryOver.formed (h : QueryOver env scopes lo b graph c) :
    QueryFormed (·.Formed (graph.freshIn lo b.size)) graph c :=
  h.clauses.formed fun m hm => (h.joins.nodes m hm).exprs

theorem resolveQuery_over (hsub : subquery.Nests env) (hb : b.Tidy env)
    (hscope : b.resolver.scope = [])
    (h : (resolveQuery env subquery param q).Runs b (graph, c) b') :
    QueryOver env b.resolver.outer b.size b' graph c := by
  obtain ⟨b₁, h1, h2⟩ := runs_resolveQuery h
  have hg := resolveFrom_over hsub hb hscope h1
  obtain ⟨hkeeps, hc⟩ := resolveClauses_over hsub hg.tidy hg.sees
    (.inl JoinGraph.root_mem_aliases) (fun _ ha => .inl (JoinGraph.mem_aliases_of_mem_records ha)) h2
  exact ⟨hg.keeps hkeeps, hc.mono hg.later⟩

/-! ## Select lists -/

/-- A select list with the same expressions, and with columns of the same aliases or of
`owners`. -/
structure Reselects (owners : Set AliasId) (items items' : List SelectItem) : Prop where
  expression : ∀ o k e name, .expression o k e name ∈ items' ↔ .expression o k e name ∈ items
  field : ∀ f, .field f ∈ items' →
    f.owner ∈ owners ∨ ∃ f', .field f' ∈ items ∧ f'.owner = f.owner

theorem Reselects.trans (h : Reselects owners items items')
    (h' : Reselects owners' items' items'') : Reselects (owners ∪ owners') items items'' := by
  refine ⟨fun o k e name => (h'.expression o k e name).trans (h.expression o k e name),
    fun f hf => ?_⟩
  rcases h'.field f hf with ho | ⟨f', hf', ho⟩
  · exact .inl (.inr ho)
  · rw [← ho]
    exact (h.field f' hf').imp_left .inl

theorem Reselects.lists (h : Reselects owners c.select items) {o : AliasId} {k : Nat} :
    ({ c with select := items } : ClauseSet).Lists o k ↔ c.Lists o k :=
  exists_congr fun e => exists_congr fun name => h.expression o k e name

theorem Reselects.selectExprs (h : Reselects owners c.select items) {e : Expr} :
    e ∈ ({ c with select := items } : ClauseSet).selectExprs ↔ e ∈ c.selectExprs := by
  have hitems (is : List SelectItem) :
      e ∈ is.filterMap (·.expr?) ↔ ∃ o k name, .expression o k e name ∈ is := by
    rw [List.mem_filterMap]
    constructor
    · rintro ⟨i, hi, he⟩
      cases i with
      | field f => cases he
      | expression o k x name =>
        cases he
        exact ⟨o, k, name, hi⟩
    · rintro ⟨o, k, name, hi⟩
      exact ⟨_, hi, rfl⟩
  simp only [ClauseSet.selectExprs, hitems, h.expression]

/-- With other columns in its select list, a query reads the aliases that they belong to at most
besides. -/
theorem Reselects.reads (h : Reselects owners c.select items)
    (ha : a ∈ ({ c with select := items } : ClauseSet).reads) : a ∈ owners ∨ a ∈ c.reads := by
  rcases ClauseSet.mem_reads.1 ha with ⟨i, hi, rfl⟩ | ⟨e, he, ha⟩
  · cases i with
    | field f =>
      rcases h.field f hi with ho | ⟨f', hf', ho⟩
      · exact .inl ho
      · exact .inr (ClauseSet.mem_reads.2 (.inl ⟨_, hf', ho.symm⟩))
    | expression o k e name =>
      exact .inr (ClauseSet.mem_reads.2 (.inl ⟨_, (h.expression o k e name).1 hi, rfl⟩))
  · refine .inr (ClauseSet.mem_reads.2 (.inr ⟨e, ?_, ha⟩))
    simp only [ClauseSet.rowExprs, List.mem_append] at he ⊢
    exact he.imp_left (Or.imp_left h.selectExprs.1)

theorem ClausesOver.reselect (h : ClausesOver visible graph fresh c)
    (hr : Reselects owners c.select items) (ho : owners ⊆ visible) :
    ClausesOver visible graph fresh { c with select := items } := by
  refine ⟨fun i hi => ?_, h.filter, fun e he =>
    (h.later e he).mono le_rfl (fun _ _ => hr.lists.2) le_rfl⟩
  cases i with
  | field f =>
    rcases hr.field f hi with hf | ⟨f', hf', hf⟩
    · exact ho hf
    · have hf' : f'.owner ∈ visible := h.select _ hf'
      exact (hf ▸ hf' : f.owner ∈ visible)
  | expression o k e name => exact h.select _ ((hr.expression o k e name).1 hi)

theorem nameOutputsFrom_reselects (earlier : List String) (items : List SelectItem) :
    Reselects ∅ items (nameOutputsFrom names earlier items) := by
  induction items generalizing earlier with
  | nil => exact ⟨fun _ _ _ _ => Iff.rfl, nofun⟩
  | cons i items ih =>
    cases i with
    | field f =>
      obtain ⟨ih1, ih2⟩ := ih ((names.get f.owner ++ "__" ++ f.column) :: earlier)
      refine ⟨fun o k e name => ?_, fun f' hf' => ?_⟩
      · simp only [nameOutputsFrom, List.mem_cons, reduceCtorEq, false_or, ih1]
      · rcases List.mem_cons.1 hf' with hf' | hf'
        · cases hf'
          exact .inr ⟨f, List.mem_cons_self, rfl⟩
        · exact (ih2 f' hf').imp_right fun ⟨g, hg, ho⟩ => ⟨g, List.mem_cons_of_mem _ hg, ho⟩
    | expression o k e name =>
      obtain ⟨ih1, ih2⟩ := ih earlier
      refine ⟨fun o' k' e' name' => ?_, fun f' hf' => ?_⟩
      · simp only [nameOutputsFrom, List.mem_cons, ih1]
      · rcases List.mem_cons.1 hf' with hf' | hf'
        · cases hf'
        · exact (ih2 f' hf').imp_right fun ⟨g, hg, ho⟩ => ⟨g, List.mem_cons_of_mem _ hg, ho⟩

/-- Without a select list, a query selects no expressions. -/
theorem resolveClauses_fields {t : ClauseTexts} (ht : t.select = none)
    (h : (resolveClauses env subquery graph param t).Runs b c b') :
    ∀ o k e name, .expression o k e name ∉ c.select := by
  obtain ⟨_, -, -, -, h, -⟩ := runs_resolveClauses h
  rw [ht] at h
  obtain ⟨hselect, -⟩ := runs_pure.1 h
  intro o k e name hi
  rw [← hselect] at hi
  obtain ⟨m, -, hi⟩ := List.mem_flatMap.1 hi
  obtain ⟨column, -, hi⟩ := List.mem_map.1 hi
  cases hi

theorem selectKeys_reselects (hc : ∀ o k e name, .expression o k e name ∉ c.select) :
    Reselects {graph.root.id} c.select (selectKeys graph c).select := by
  have hkeys : ∀ i ∈ (selectKeys graph c).select, ∃ f, i = .field f ∧ f.owner = graph.root.id := by
    intro i hi
    obtain ⟨column, -, rfl⟩ := List.mem_map.1 hi
    exact ⟨_, rfl, rfl⟩
  refine ⟨fun o k e name => ⟨fun hi => ?_, fun hi => absurd hi (hc o k e name)⟩, fun f hf => ?_⟩
  · obtain ⟨f, ⟨⟩, -⟩ := hkeys _ hi
  · obtain ⟨f', he, ho⟩ := hkeys _ hf
    cases he
    exact .inl ho

/-! ## Subqueries -/

theorem Bindings.Tidy.pushScope (hb : b.Tidy env) :
    Bindings.Tidy env { b with resolver := b.resolver.pushScope } :=
  ⟨hb.described, hb.distinct.nodup, hb.distinct.covers⟩

/-- Leaving the scope of a subquery restores the scopes. -/
theorem JoinGraph.Over.popScope (h : graph.Over env (b.resolver.scope :: b.resolver.outer) b.size b') :
    b.Keeps env { b' with resolver := b'.resolver.popScope } := by
  have hpop : b'.resolver.popScope =
      { b'.resolver with scope := b.resolver.scope, outer := b.resolver.outer } := by
    rw [Resolver.popScope, h.outer_eq]
  rw [hpop]
  exact ⟨⟨h.tidy.described, h.tidy.distinct.nodup, h.tidy.distinct.covers⟩, h.size_le, rfl, rfl⟩

theorem resolveSubquery_nests (env : Surroundings) (levels : Nat) :
    (resolveSubquery env levels).Nests env := by
  induction levels with
  | zero => exact fun _ _ _ _ _ _ _ h => absurd h not_runs_malformed
  | succ levels ih =>
    intro inner param clause b b' s hb h
    obtain ⟨q, graph, c, b₁, -, hrun, rfl, rfl⟩ := runs_resolveSubquery h
    have hover : QueryOver env (b.resolver.scope :: b.resolver.outer) b.size b₁ graph c :=
      resolveQuery_over ih hb.pushScope rfl hrun
    have hroot : {graph.root.id} ⊆ {a | a ∈ graph.aliases} ∪
        AliasScope.bound (b.resolver.scope :: b.resolver.outer) := by
      rintro _ rfl
      exact .inl JoinGraph.root_mem_aliases
    have hkeys : QueryOver env (b.resolver.scope :: b.resolver.outer) b.size b₁ graph
        (if q.select.isNone then selectKeys graph c else c) := by
      split
      · rename_i hq
        obtain ⟨_, -, h5⟩ := runs_resolveQuery hrun
        have hc := resolveClauses_fields (Option.isNone_iff_eq_none.1 hq) h5
        exact ⟨hover.joins, hover.clauses.reselect (selectKeys_reselects hc) hroot⟩
      · exact hover
    generalize (if q.select.isNone then selectKeys graph c else c) = c' at hkeys ⊢
    have hnamed : QueryOver env (b.resolver.scope :: b.resolver.outer) b.size b₁ graph
        (nameOutputs b₁.resolver.popScope.names c') :=
      ⟨hkeys.joins, hkeys.clauses.reselect (nameOutputsFrom_reselects [] c'.select)
        (Set.empty_subset _)⟩
    have hsize : Bindings.size { b₁ with resolver := b₁.resolver.popScope } = b₁.size :=
      Bindings.size_popScope b₁
    refine ⟨hover.joins.popScope, fun a ha => hnamed.outerReads ha, ?_⟩
    rw [hsize]
    obtain ⟨owners, rows, later, nested⟩ := hnamed.formed
    refine .intro hover.joins.ids (fun m hm => (hover.joins.nodes m hm).parent) owners rows later
      fun e he r hr => ?_
    exact (nested e he r hr).mono fun a ha => ha.1

end ObjectQuery
