import ObjectQuery.Proofs.Plan.Emission
import ObjectQuery.Proofs.Resolve.Clauses
import ObjectQuery.Proofs.Resolve.Selection
import ObjectQuery.Resolve.Query

/-! # Queries are resolved level by level

What a query is resolved to comes from its text, and so does a subquery, by induction on the
levels of nesting.

* `resolveQuery_spec`, `resolveSubquery_yields`: queries and subqueries;
* `runs_appendOrdering_terms`: an ordering adds the terms of its items, those aside that are there
  already (`dropRepeats`);
* `appendDefaultOrdering_spec`: the orderings of the schema;
* `plan_spec`: the plan of a text comes from the text. -/

namespace ObjectQuery

open Resolve

variable {env : Surroundings} {R : Origin} {T inner : Text} {subquery : ResolveSubquery}
  {param off : Nat} {b b' : Bindings} {graph : JoinGraph} {c : ClauseSet} {q : Query}

/-! ## Queries -/

/-- What is known of the joins and clauses that a query is resolved to. -/
structure Resolved (env : Surroundings) (R : Origin) (T : Text) (param : Nat) (q : Query)
    (graph : JoinGraph) (c : ClauseSet) (b b' : Bindings) : Prop where
  origin : QueryFrom env R T param q graph c
  sound : graph.Sound env b'.size
  below : c.Below b'.size
  explicit : ∀ t ∈ c.orderBy, t.implicit = false
  grows : b.Grows env b'

theorem ClauseStands.of_lies {s : Scanner} {clause? : Option Segment}
    (hs : s.Stands T off param inner) (h : ∀ g ∈ clause?, g.Lies s 0 inner) :
    ClauseStands s T param clause? :=
  fun g hg => (h g hg).after.stands hs

theorem runs_resolveQuery (h : (resolveQuery env subquery param q).Runs b (graph, c) b') :
    ∃ b₁, (resolveFrom env subquery param q.source).Runs b graph b₁ ∧
      (resolveClauses env subquery graph param q.toClauseTexts).Runs b₁ c b' := by
  obtain ⟨g, b₁, h1, hrest⟩ := runs_bind.1 h
  obtain ⟨c', b₂, h2, h3⟩ := runs_bind.1 hrest
  obtain ⟨⟨⟩, rfl⟩ := runs_pure.1 h3
  exact ⟨b₁, h1, h2⟩

/-- The elements of the `FROM` clause of a query that is read from a part of the text. -/
theorem Query.Read.ready {s : Scanner} (hq : q.Read s inner) (hs : s.Stands T off param inner) :
    q.source.root.Named ∧ ∀ j ∈ q.source.joins, j.Ready s T param := by
  obtain ⟨clause, hclause, hread⟩ := hq.source
  refine ⟨hread.root, fun j hj => ?_⟩
  have hj := hread.joins j hj
  exact ⟨hj.named, hj.relation, fun k hk => (hclause.trans (hj.lies k hk)).after.stands hs⟩

theorem resolveQuery_spec (hsub : subquery.Yields env R) (hb : b.Sound env)
    (hscope : b.resolver.scope = []) (hs : env.config.scanner.Stands T off param inner)
    (hq : q.Read env.config.scanner inner)
    (h : (resolveQuery env subquery param q).Runs b (graph, c) b') :
    Resolved env R T param q graph c b b' := by
  obtain ⟨b₁, h1, h2⟩ := runs_resolveQuery h
  obtain ⟨hroot, hjoins⟩ := hq.ready hs
  obtain ⟨hg, hsound, hgrows⟩ := resolveFrom_spec hsub hb hscope hroot hjoins h1
  obtain ⟨hext, hc, hbelow, hexplicit⟩ := resolveClauses_spec hsub hgrows.sound hsound
    ⟨.of_lies hs hq.select, .of_lies hs hq.filter, .of_lies hs hq.groupBy, .of_lies hs hq.having,
      .of_lies hs hq.orderBy⟩ h2
  exact ⟨⟨hc, hg⟩, hsound.mono hext.size_le, hbelow, hexplicit, hgrows.trans hext.grows⟩

/-! ## Subqueries -/

theorem Bindings.Sound.pushScope (hb : b.Sound env) :
    Bindings.Sound env { b with resolver := b.resolver.pushScope } :=
  ⟨hb.described, nofun, List.forall_mem_cons.2 ⟨hb.scope, hb.outer⟩, hb.named⟩

/-- Leaving the scope of a subquery restores the scopes. -/
theorem Bindings.Grows.popScope
    (h : Bindings.Grows env { b with resolver := b.resolver.pushScope } b') :
    b.Extends env { b' with resolver := b'.resolver.popScope } := by
  have houter : b'.resolver.outer = b.resolver.scope :: b.resolver.outer := h.outer_eq
  have hpop : b'.resolver.popScope =
      { b'.resolver with scope := b.resolver.scope, outer := b.resolver.outer } := by
    rw [Resolver.popScope, houter]
  have hs := h.sound.outer
  rw [houter] at hs
  obtain ⟨hscope, hout⟩ := List.forall_mem_cons.1 hs
  rw [hpop]
  exact ⟨⟨h.sound.described, hscope, hout, h.sound.named⟩, h.size_le, rfl, rfl⟩

theorem Bindings.size_popScope (b : Bindings) :
    Bindings.size { b with resolver := b.resolver.popScope } = b.size := by
  simp only [Bindings.size, Resolver.popScope]
  split <;> rfl

theorem selectKeys_fieldsOnly {n : Nat} (hg : graph.Sound env n) :
    FieldsOnly env n (selectKeys graph c).select :=
  have hroot : graph.root ∈ graph.nodes := List.mem_cons_self
  fieldsOnly_ofColumns (hg.id_lt _ hroot) (hg.derived _ hroot).described
    fun _ hx => (List.mem_filter.1 hx).1

/-- A query without a select list has no placeholder in it, whatever is selected instead. -/
theorem Resolved.selectKeys (h : Resolved env R T param q graph c b b') (hq : q.select = none) :
    Resolved env R T param q graph (selectKeys graph c) b b' := by
  have hf := selectKeys_fieldsOnly (c := c) h.sound
  have ho := h.origin
  refine ⟨⟨⟨?_, fun f hmem => ?_, ho.filter, ho.groupBy, ho.having, ho.orderBy, ho.directions⟩,
    ho.graph⟩, h.sound, ⟨fun i hi => (hf.sound i hi).below, h.below.filter, h.below.groupBy,
    h.below.having, h.below.orderBy⟩, h.explicit, h.grows⟩
  · rw [ClauseSet.selectExprs, hf.exprs, hq]
    exact .nil
  · obtain ⟨i, hi, hif⟩ := List.mem_filterMap.1 hmem
    exact (hf.sound i hi).column f hif

/-- A subquery is parsed, resolved in a scope of its own, and given a select list and names. -/
theorem runs_resolveSubquery {levels : Nat} {clause : Clause} {s : Subquery}
    (h : (resolveSubquery env (levels + 1) inner param clause).Runs b s b') :
    ∃ q graph c b₁, Query.parse env.config.scanner inner = .ok q ∧
      (resolveQuery env (resolveSubquery env levels) param q).Runs
        { b with resolver := b.resolver.pushScope } (graph, c) b₁ ∧
      b' = { b₁ with resolver := b₁.resolver.popScope } ∧
      s = ⟨graph, nameOutputs b₁.resolver.popScope.names
          (if q.select.isNone then selectKeys graph c else c),
        graph.emissionOrder (AliasSet.ofList graph.aliases)⟩ := by
  obtain ⟨q, _, h1, hrest⟩ := runs_bind.1 h
  obtain ⟨hparse, rfl⟩ := runs_lift.1 h1
  obtain ⟨⟨graph, c⟩, _, h2, hrest⟩ := runs_bind.1 hrest
  obtain ⟨b₁, hrun, rfl⟩ := runs_inScope.1 h2
  obtain ⟨_, _, h3, h4⟩ := runs_bind.1 hrest
  obtain ⟨rfl, rfl⟩ := runs_get.1 h3
  obtain ⟨rfl, rfl⟩ := runs_pure.1 h4
  exact ⟨q, graph, c, b₁, hparse, hrun, rfl, rfl⟩

/-- A subquery comes from its text when those inside it come from theirs. -/
theorem resolveSubquery_spec {levels : Nat} {clause : Clause} {s : Subquery}
    (hsub : (resolveSubquery env levels).Yields env R) (hb : b.Sound env)
    (hs : env.config.scanner.Stands T off param inner)
    (h : (resolveSubquery env (levels + 1) inner param clause).Runs b s b') :
    b.Extends env b' ∧ s.outerReads.Below b'.size ∧ (∀ t ∈ s.clauses.orderBy, t.implicit = false) ∧
      s.emitted = s.graph.aliases ∧
      ∃ q, Query.parse env.config.scanner inner = .ok q ∧
        QueryFrom env R T param q s.graph s.clauses := by
  obtain ⟨q, graph, c, b₁, hparse, hrun, rfl, rfl⟩ := runs_resolveSubquery h
  have hres := resolveQuery_spec hsub hb.pushScope rfl hs (Query.parse_spec hparse) hrun
  have hkeys : Resolved env R T param q graph
      (if q.select.isNone then ObjectQuery.selectKeys graph c else c)
      { b with resolver := b.resolver.pushScope } b₁ := by
    split
    · rename_i hq
      exact hres.selectKeys (Option.isNone_iff_eq_none.1 hq)
    · exact hres
  refine ⟨hres.grows.popScope, ?_, hkeys.explicit,
    JoinGraph.emissionOrder_aliases hres.sound.declared, q, hparse,
    hkeys.origin.toClausesFrom.nameOutputs _, hkeys.origin.graph⟩
  rw [Bindings.size_popScope]
  exact Subquery.below_outerReads (nameOutputs_below _ hkeys.below) hres.sound.below

theorem resolveSubquery_yields (env : Surroundings) (levels : Nat) :
    (resolveSubquery env levels).Yields env (SubqueryFrom env levels) := by
  induction levels with
  | zero => exact fun _ _ _ _ _ _ _ _ _ _ h => absurd h not_runs_malformed
  | succ levels ih =>
    intro T off param inner clause b b' s hb hs h
    obtain ⟨hext, hbelow, hexplicit, hemitted, hquery⟩ := resolveSubquery_spec ih hb hs h
    exact ⟨hext, ⟨hs, hexplicit, hemitted, hquery⟩, hbelow⟩

/-! ## Default orderings -/

/-- The orderings of the schema are about occurrences of the graph. -/
theorem mem_defaultOrderings {emitted : List AliasId} {o : AliasId × String}
    (h : o ∈ defaultOrderings graph emitted) : ∃ n ∈ graph.nodes, n.id = o.1 := by
  rcases List.mem_append.1 h with h | h
  · obtain ⟨n, hn, h⟩ := List.mem_flatMap.1 h
    obtain ⟨id, -, hid⟩ := List.mem_filterMap.1 hn
    have hn : n ∈ graph.nodes := List.mem_of_find?_eq_some hid
    simp only [joinOrderings] at h
    split at h
    · rcases List.mem_append.1 h with h | h
      · split at h
        · rename_i bridge _ hb
          obtain ⟨text, -, rfl⟩ := List.mem_map.1 h
          obtain ⟨a, -, hb⟩ := Option.bind_eq_some_iff.1 hb
          exact ⟨bridge, List.mem_of_find?_eq_some hb, rfl⟩
        · cases h
      · obtain ⟨text, -, rfl⟩ := List.mem_map.1 h
        exact ⟨n, hn, rfl⟩
    · cases h
  · obtain ⟨text, -, rfl⟩ := List.mem_map.1 h
    exact ⟨graph.root, List.mem_cons_self, rfl⟩

/-- What is known of an order term that the schema adds: it comes from a text without
placeholders. -/
structure OrderTerm.Implicit (env : Surroundings) (R : Origin) (t : OrderTerm) : Prop where
  ordinary : t.Ordinary true
  origin : ∃ ordering g, env.config.scanner.count ordering = 0 ∧ ExprFrom env R ordering g t.expr

/-- The terms are some terms followed by terms that the schema adds. -/
def Appends (env : Surroundings) (R : Origin) (ts ts' : List OrderTerm) : Prop :=
  ∃ more, ts' = ts ++ more ∧ ∀ t ∈ more, t.Implicit env R

theorem Appends.refl (ts : List OrderTerm) : Appends env R ts ts :=
  ⟨[], (List.append_nil ts).symm, nofun⟩

theorem Appends.trans {ts ts' ts'' : List OrderTerm} (h : Appends env R ts ts')
    (h' : Appends env R ts' ts'') : Appends env R ts ts'' := by
  obtain ⟨more, rfl, hm⟩ := h
  obtain ⟨more', rfl, hm'⟩ := h'
  refine ⟨more ++ more', List.append_assoc _ _ _, fun t ht => ?_⟩
  exact (List.mem_append.1 ht).elim (hm t) (hm' t)

/-- The terms after the items of an ordering about an alias: each item is resolved, and its term is
added or is there already. -/
inductive OrdersBy (env : Surroundings) (subquery : ResolveSubquery) (id : AliasId) :
    List Item → List OrderTerm → Bindings → List OrderTerm → Bindings → Prop
  | nil {ts : List OrderTerm} {b : Bindings} : OrdersBy env subquery id [] ts b ts b
  | cons {i : Item} {items : List Item} {t : OrderTerm} {ts ts₁ ts' : List OrderTerm}
    {b b₁ b' : Bindings} (hcount : env.config.scanner.count i.text = 0)
    (ht : (resolveOrderItem env subquery { default := some id } true ⟨i.text, 0⟩).Runs b t b₁)
    (hts : ts₁ = ts ∨ ts₁ = ts ++ [t]) (hrest : OrdersBy env subquery id items ts₁ b₁ ts' b') :
    OrdersBy env subquery id (i :: items) ts b ts' b'

/-- The terms without those whose expression is that of a term before them. -/
def dropRepeats (earlier : List OrderTerm) : List OrderTerm → List OrderTerm
  | [] => []
  | t :: ts =>
    if earlier.any (fun u => u.expr = t.expr) then dropRepeats earlier ts
    else t :: dropRepeats (earlier ++ [t]) ts

theorem dropRepeats_append (earlier ts us : List OrderTerm) : dropRepeats earlier (ts ++ us) =
    dropRepeats earlier ts ++ dropRepeats (earlier ++ dropRepeats earlier ts) us := by
  induction ts generalizing earlier with
  | nil => simp [dropRepeats]
  | cons t ts ih =>
    simp only [List.cons_append, dropRepeats]
    split
    · exact ih earlier
    · rw [ih, List.append_assoc, List.singleton_append, List.cons_append]

/-- An ordering adds the terms of its items that are not there already. -/
theorem runs_appendOrdering_terms {id : AliasId} {ordering : Text} {ts ts' : List OrderTerm}
    (h : (appendOrdering env subquery ts id ordering).Runs b ts' b') :
    ∃ items us, segmentItems env.config.scanner .orderBy 0 ⟨ordering, 0⟩ = .ok items ∧
      (∀ i ∈ items, env.config.scanner.count i.text = 0) ∧
      Runs (items.mapM fun i =>
        resolveOrderItem env subquery { default := some id } true ⟨i.text, 0⟩) b us b' ∧
      ts' = ts ++ dropRepeats ts us := by
  obtain ⟨items, _, h1, h2⟩ := runs_bind.1 h
  obtain ⟨hitems, rfl⟩ := runs_lift.1 h1
  refine ⟨items, ?_⟩
  simp only [hitems, true_and]
  clear h hitems h1
  induction items generalizing ts b with
  | nil =>
    obtain ⟨rfl, rfl⟩ := runs_foldlM_nil.1 h2
    exact ⟨[], nofun, runs_mapM_nil.2 ⟨rfl, rfl⟩, (List.append_nil _).symm⟩
  | cons i items ih =>
    obtain ⟨ts₁, b₁, h1, h2⟩ := runs_foldlM_cons.1 h2
    obtain ⟨bound, _, h3, hrest⟩ := runs_bind.1 h1
    obtain ⟨hbound, rfl⟩ := runs_scanning.1 h3
    split at hrest
    · exact absurd hrest not_runs_malformed
    · rename_i hzero
      obtain ⟨t, b₂, h4, h5⟩ := runs_bind.1 hrest
      have hcount : env.config.scanner.count i.text = 0 := by
        have := (Scanner.placeholders_eq_ok.1 hbound).2
        omega
      obtain ⟨us, hcounts, hus, hts'⟩ := ih h2
      have hterm : ts₁ = ts ++ dropRepeats ts [t] ∧ b₂ = b₁ := by
        simp only [dropRepeats]
        split at h5
        · rename_i hany
          rw [if_pos hany, List.append_nil]
          obtain ⟨rfl, rfl⟩ := runs_pure.1 h5
          exact ⟨rfl, rfl⟩
        · rename_i hany
          rw [if_neg hany]
          obtain ⟨rfl, rfl⟩ := runs_pure.1 h5
          exact ⟨rfl, rfl⟩
      obtain ⟨rfl, rfl⟩ := hterm
      refine ⟨t :: us, List.forall_mem_cons.2 ⟨hcount, hcounts⟩,
        runs_mapM_cons.2 ⟨t, b₂, us, h4, hus, rfl⟩, ?_⟩
      have happend := dropRepeats_append ts [t] us
      rw [List.singleton_append] at happend
      rw [hts', happend, List.append_assoc]

theorem OrdersBy.of_terms {id : AliasId} {items : List Item} {ts us : List OrderTerm}
    (hcount : ∀ i ∈ items, env.config.scanner.count i.text = 0)
    (h : Runs (items.mapM fun i =>
      resolveOrderItem env subquery { default := some id } true ⟨i.text, 0⟩) b us b') :
    OrdersBy env subquery id items ts b (ts ++ dropRepeats ts us) b' := by
  induction items generalizing ts us b with
  | nil =>
    obtain ⟨rfl, rfl⟩ := runs_mapM_nil.1 h
    rw [dropRepeats, List.append_nil]
    exact .nil
  | cons i items ih =>
    obtain ⟨t, b₁, us, ht, hus, rfl⟩ := runs_mapM_cons.1 h
    obtain ⟨hi, hcount⟩ := List.forall_mem_cons.1 hcount
    rw [dropRepeats]
    split
    · exact .cons hi ht (.inl rfl) (ih hcount hus)
    · refine .cons hi ht (.inr rfl) ?_
      rw [List.append_cons ts t (dropRepeats _ us)]
      exact ih hcount hus

theorem runs_appendOrdering {id : AliasId} {ordering : Text} {ts ts' : List OrderTerm}
    (h : (appendOrdering env subquery ts id ordering).Runs b ts' b') :
    ∃ items, segmentItems env.config.scanner .orderBy 0 ⟨ordering, 0⟩ = .ok items ∧
      OrdersBy env subquery id items ts b ts' b' := by
  obtain ⟨items, us, hitems, hcount, hus, rfl⟩ := runs_appendOrdering_terms h
  exact ⟨items, hitems, .of_terms hcount hus⟩

theorem OrdersBy.spec {id : AliasId} {items : List Item} {ts ts' : List OrderTerm}
    (h : OrdersBy env subquery id items ts b ts' b') (hsub : subquery.Yields env R)
    (hb : b.Sound env) (hid : id < b.size)
    (hbal : ∀ i ∈ items, env.config.scanner.Balanced i.text) :
    b.Extends env b' ∧ Appends env R ts ts' := by
  induction h with
  | nil => exact ⟨.refl hb, .refl _⟩
  | @cons i items t ts ts₁ ts' b b₁ b' hcount ht hts _ ih =>
    obtain ⟨hi, hbal⟩ := List.forall_mem_cons.1 hbal
    have hbare : BareWords.Sound { default := some id } b.size :=
      ⟨nofun, by rintro _ ⟨⟩; exact hid⟩
    obtain ⟨hext, hm⟩ := resolveOrderItem_spec hsub hb hbare (.refl hi) ht
    have ht : t.Implicit env R := by
      obtain ⟨parts, hparts, -⟩ := hm.parts
      obtain ⟨⟩ | ⟨he, -⟩ := hparts
      exact ⟨hm.property, i.text, _, hcount, he⟩
    have hts : Appends env R ts ts₁ := by
      rcases hts with rfl | rfl
      · exact .refl _
      · exact ⟨[t], rfl, List.forall_mem_singleton.2 ht⟩
    obtain ⟨hext', hts'⟩ := ih hext.sound (Nat.lt_of_lt_of_le hid hext.size_le) hbal
    exact ⟨hext.trans hext', hts.trans hts'⟩

theorem appendOrdering_spec {id : AliasId} {ordering : Text} {ts ts' : List OrderTerm}
    (hsub : subquery.Yields env R) (hb : b.Sound env) (hid : id < b.size)
    (h : (appendOrdering env subquery ts id ordering).Runs b ts' b') :
    b.Extends env b' ∧ Appends env R ts ts' := by
  obtain ⟨items, hitems, h⟩ := runs_appendOrdering h
  obtain ⟨-, hlies, -⟩ := segmentItems_spec hitems
  refine h.spec hsub hb hid fun i hi => ?_
  obtain ⟨_, _, hs, -⟩ := hlies i hi
  exact hs.balanced

theorem appendOrderings_spec {os : List (AliasId × String)} {ts ts' : List OrderTerm}
    (hsub : subquery.Yields env R) (hb : b.Sound env) (hos : ∀ o ∈ os, o.1 < b.size)
    (h : Runs (os.foldlM (fun terms o => appendOrdering env subquery terms o.1 o.2.toList) ts)
      b ts' b') : b.Extends env b' ∧ Appends env R ts ts' := by
  refine runs_foldlM_keeps (I := fun us c => b.Extends env c ∧ Appends env R ts us) ?_
    ⟨.refl hb, .refl ts⟩ h
  rintro o ho us b₁ us' b₂ ⟨hext, hus⟩ h
  obtain ⟨hext', hus'⟩ :=
    appendOrdering_spec hsub hext.sound (Nat.lt_of_lt_of_le (hos o ho) hext.size_le) h
  exact ⟨hext.trans hext', hus.trans hus'⟩

theorem appendDefaultOrdering_spec {emitted : List AliasId} {c' : ClauseSet}
    (hsub : subquery.Yields env R) (hb : b.Sound env) (hg : graph.Sound env b.size)
    (h : (appendDefaultOrdering env subquery graph emitted c).Runs b c' b') :
    b.Extends env b' ∧ Appends env R c.orderBy c'.orderBy ∧
      c' = { c with orderBy := c'.orderBy } := by
  obtain ⟨ts, _, h1, h2⟩ := runs_bind.1 h
  obtain ⟨rfl, rfl⟩ := runs_pure.1 h2
  obtain ⟨hext, hts⟩ := appendOrderings_spec hsub hb (fun o ho => by
    obtain ⟨n, hn, hid⟩ := mem_defaultOrderings ho
    exact hid ▸ hg.id_lt n hn) h1
  exact ⟨hext, hts, rfl⟩

/-- Orderings that the schema adds leave the explicit ones alone. -/
theorem Appends.filter_explicit {ts ts' : List OrderTerm} (h : Appends env R ts ts') :
    ts'.filter (!·.implicit) = ts.filter (!·.implicit) := by
  obtain ⟨more, rfl, hm⟩ := h
  have hnil : more.filter (!·.implicit) = [] := List.filter_eq_nil_iff.2 fun t ht => by
    rw [(hm t ht).ordinary.implicit_eq]
    decide
  rw [List.filter_append, hnil, List.append_nil]

theorem ClausesFrom.appends {base : Nat} {q : ClauseTexts} {c' : ClauseSet}
    (h : ClausesFrom env R T base q c) (ha : Appends env R c.orderBy c'.orderBy)
    (hc : c' = { c with orderBy := c'.orderBy }) : ClausesFrom env R T base q c' := by
  have hexplicit : c'.explicitOrder = c.explicitOrder := congrArg (List.map _) ha.filter_explicit
  obtain ⟨more, ho, hm⟩ := ha
  rw [hc]
  refine ⟨h.select, h.fields, h.filter, h.groupBy, h.having, ?_, fun t ht => ?_⟩
  · rw [hc] at hexplicit
    exact hexplicit ▸ h.orderBy
  · have ht : t ∈ c'.orderBy := ht
    rw [ho] at ht
    exact (List.mem_append.1 ht).elim (h.directions t) fun ht => (hm t ht).ordinary.direction

/-! ## Plans -/

theorem isName_freshName {r : Resolver} {table : String} : IsName (r.freshName table).1 :=
  isName_numberedName _ _

theorem renameFrom_isName {r : Resolver} {names : AliasNames} {ids : List AliasId}
    (h : ∀ name ∈ names, IsName name) : ∀ name ∈ (r.renameFrom names ids).1, IsName name := by
  induction ids generalizing r names with
  | nil => exact h
  | cons id ids ih =>
    rw [Resolver.renameFrom]
    split
    · exact ih h
    · refine ih fun name hn => ?_
      rcases List.mem_or_eq_of_mem_set hn with hn | rfl
      · exact h name hn
      · exact isName_freshName

theorem Bindings.Sound.names (hb : b.Sound env) : ∀ name ∈ b.resolver.names, IsName name := by
  intro name hn
  obtain ⟨o, ho, rfl⟩ := List.mem_map.1 hn
  exact hb.named o ho

theorem runs_planQuery {p : QueryPlan} (h : (planQuery env q).Runs b p b') :
    ∃ graph c c' b₁ emitted,
      (resolveQuery env (resolveSubquery env env.config.maxSubqueryDepth) 0 q).Runs b (graph, c) b₁ ∧
      emitted = emittedAliases env.config graph c ∧
      (appendDefaultOrdering env (resolveSubquery env env.config.maxSubqueryDepth) graph emitted
        c).Runs b₁ c' b' ∧
      p = ⟨b'.resolver.names,
        if (emitted.filterMap graph.node?).any (·.isFanOut) && c'.isLimited then
          some (b'.resolver.shadow emitted).1 else none,
        graph, nameOutputs b'.resolver.names (completeSelection graph emitted c'), emitted,
        q.placeholders⟩ := by
  obtain ⟨⟨graph, c⟩, b₁, h1, hrest⟩ := runs_bind.1 h
  obtain ⟨c', b₂, h2, hrest⟩ := runs_bind.1 hrest
  obtain ⟨_, _, h3, h4⟩ := runs_bind.1 hrest
  obtain ⟨rfl, rfl⟩ := runs_get.1 h3
  obtain ⟨rfl, rfl⟩ := runs_pure.1 h4
  exact ⟨graph, c, c', b₁, _, h1, rfl, h2, rfl⟩

/-- A query whose orderings are appended and whose select list is completed and named. -/
theorem Resolved.completed {emitted : List AliasId} {c' : ClauseSet}
    (h : Resolved env R T param q graph c b b') (ha : Appends env R c.orderBy c'.orderBy)
    (hc : c' = { c with orderBy := c'.orderBy }) (names : AliasNames) :
    QueryFrom env R T param q graph (nameOutputs names (completeSelection graph emitted c')) ∧
      ∀ t ∈ c'.orderBy, t.implicit = true →
        ∃ ordering g, env.config.scanner.count ordering = 0 ∧ ExprFrom env R ordering g t.expr := by
  have hclauses := h.origin.toClausesFrom.appends ha hc
  refine ⟨⟨(hclauses.completeSelection h.origin.graph.derived).nameOutputs _, h.origin.graph⟩, ?_⟩
  intro t ht hi
  obtain ⟨more, ho, hm⟩ := ha
  rw [ho] at ht
  rcases List.mem_append.1 ht with ht | ht
  · rw [h.explicit t ht] at hi
    cases hi
  · exact (hm t ht).origin

theorem planQuery_spec {p : QueryPlan} (hparse : Query.parse env.config.scanner T = .ok q)
    (h : (planQuery env q).Runs {} p b') : PlanFrom env T p := by
  have hread := Query.parse_spec hparse
  have hsub := resolveSubquery_yields env env.config.maxSubqueryDepth
  obtain ⟨graph, c, c', b₁, emitted, h1, hemitted, h2, rfl⟩ := runs_planQuery h
  have hres := resolveQuery_spec hsub .empty rfl (.refl hread.balanced) hread h1
  obtain ⟨hext, happ, hc'⟩ := appendDefaultOrdering_spec hsub hres.grows.sound hres.sound h2
  have hnames := hext.sound.names
  obtain ⟨hquery, himplicit⟩ := hres.completed happ hc' b'.resolver.names
  refine ⟨⟨q, hparse, hquery⟩, himplicit, hread.placeholders, fun hp => ?_, hnames, ?_,
    fun f hf => ?_⟩
  · simp only [hemitted, emittedAliases, hp]
    exact JoinGraph.emissionOrder_aliases hres.sound.declared
  · intro names hn
    split at hn
    · cases hn
      exact renameFrom_isName hnames
    · cases hn
  · exact (nameOutputs_fields hf).1

/-- The plan of a text comes from the text. -/
theorem plan_spec {p : QueryPlan} (h : plan env T = .ok p) : PlanFrom env T p := by
  obtain ⟨q, hparse, h⟩ := Except.bind_eq_ok.1 h
  have hrun : (planQuery env q).Runs {} p ((planQuery env q).run {}).2 := Prod.ext h rfl
  exact planQuery_spec hparse hrun

end ObjectQuery
