import ObjectQuery.Proofs.Resolve.Safety
import ObjectQuery.Proofs.Schema.Validity

/-! # Planning against a catalog

Every relation of a catalog leads to components with keys, so planning against a catalog fails for
what is wrong with a query, or because a `FROM` clause starts with a component that the catalog
lacks. The clause may be that of the query, of a query inside it, or of one inside an ordering of the
schema (`Surroundings.Involves`).

* `resolveSubquery_safe`, `planQuery_safe`: subqueries and plans;
* `Catalog.complete`: what the check of a definition is good for;
* `Catalog.plan_safe`: plans against a catalog. -/

namespace ObjectQuery

open Resolve

variable {env : Surroundings} {N : QueryError → Prop} {subquery : ResolveSubquery} {param : Nat}
  {b b' : Bindings} {T t u : Text} {q : Query} {id : AliasId} {graph : JoinGraph}

/-! ## Queries -/

theorem resolveQuery_safe (henv : env.Complete) (hnests : subquery.Nests env)
    (hsub : subquery.SafeIn env N T) (hb : b.Informed env) (hscope : b.resolver.scope = [])
    (ht : env.config.scanner.HasPart T t) (hparse : Query.parse env.config.scanner t = .ok q)
    (hN : ∀ e, env.Misses t e → N e) : Safe env N b (resolveQuery env subquery param q) := by
  have hread := Query.parse_spec hparse
  obtain ⟨clause, hclause, hsource⟩ := hread.source
  obtain ⟨name, hname⟩ := List.length_eq_one_iff.1 hsource.component
  have hroot : ∀ e, env.describe .from (q.source.root.path.headD "") = .error e → N e := by
    intro e he
    rw [hname] at he
    exact hN e ⟨q, name, hparse, hname, he⟩
  have hjoins : ∀ j ∈ q.source.joins, ∀ k ∈ j.condition,
      env.config.scanner.HasPart T k.segment.text := by
    intro j hj k hk
    exact (ht.trans (.of_lies hclause)).trans (.of_lies ((hsource.joins j hj).lies k hk))
  have hclauses : q.PartsOf env.config.scanner T :=
    ⟨fun g hg => ht.trans (.of_lies (hread.select g hg)),
      fun g hg => ht.trans (.of_lies (hread.filter g hg)),
      fun g hg => ht.trans (.of_lies (hread.groupBy g hg)),
      fun g hg => ht.trans (.of_lies (hread.having g hg)),
      fun g hg => ht.trans (.of_lies (hread.orderBy g hg))⟩
  apply Safe.bind (resolveFrom_safe henv hnests hsub hb hscope hroot hjoins)
  intro graph b₁ hb₁ _ hr
  have hg := resolveFrom_over hnests hb.toTidy hscope hr
  have hknown := hb₁.ofGraph hg JoinGraph.root_mem_aliases
  exact (resolveClauses_safe hsub hb₁ hknown hclauses).bind_pure

theorem resolveSubquery_safe (henv : env.Complete) (hT : env.config.scanner.Balanced T)
    (hN : ∀ u ∈ env.config.scanner.nestedQueries T, ∀ e, env.Misses u e → N e) (levels : Nat) :
    (resolveSubquery env levels).SafeIn env N T := by
  induction levels with
  | zero =>
    intro u inner param clause b _ _ hb
    exact safe_malformed hb
  | succ levels ih =>
    intro u inner param clause b hu hm hb
    have hinner := hu.nested hm
    obtain ⟨pos, k, hstands⟩ := hu
    have hmem := hstands.mem_nestedQueries hT hm
    apply Safe.bind (safe_lift hb Query.parse_failsInForm)
    intro q b₁ hb₁ _ hr
    obtain ⟨hparse, -⟩ := runs_lift.1 hr
    have hquery : Safe env N _ (resolveQuery env (resolveSubquery env levels) param q) :=
      resolveQuery_safe henv (resolveSubquery_nests env levels) ih hb₁.pushScope rfl hinner hparse
        (hN inner hmem)
    have hscope : Safe env N b₁ (inScope (resolveQuery env (resolveSubquery env levels) param q)) :=
      .within hb₁ hquery (Stays.stop hquery).popScope
    apply Safe.bind hscope
    rintro ⟨graph, c⟩ b₂ hb₂ _ _
    refine .aliases hb₂ (fun b' hb' => ?_) (safe_pure hb₂)
    simp only [hb']

/-! ## Default orderings -/

theorem appendOrdering_safe {ordering : Text} {ts : List OrderTerm}
    (hsub : env.config.scanner.Balanced ordering → subquery.SafeIn env N ordering)
    (hb : b.Informed env) (hid : (b.component? id).isSome = true) :
    Safe env N b (appendOrdering env subquery ts id ordering) := by
  apply Safe.bind (safe_lift hb segmentItems_failsInForm)
  intro items b₁ hb₁ hk hr
  obtain ⟨hitems, -⟩ := runs_lift.1 hr
  obtain ⟨hordering, -⟩ := segmentItems_spec hitems
  apply stays_foldlM_of_knownIn hb₁
  intro i hi ts b₂ hb₂ hk₂
  apply Safe.bind (safe_scanning hb₂)
  intro bound b₃ hb₃ hk₃ _
  split
  · exact safe_malformed hb₃
  · have hbare : ∀ a ∈ (BareWords.mk (fun _ => none) (some id)).default,
        (b₃.component? a).isSome = true := by
      rintro _ ⟨⟩
      exact hk₃ id (hk₂ id (hk id hid))
    have hpart : env.config.scanner.HasPart ordering i.text := .of_items hitems i hi
    have hitem : Safe env N b₃
        (resolveOrderItem env subquery { default := some id } true ⟨i.text, 0⟩) :=
      resolveOrderItem_safe (hsub hordering) hb₃ hbare hpart
    apply Safe.bind hitem
    intro term b₄ hb₄ _ _
    split <;> exact safe_pure hb₄

/-! ## Plans -/

/-- The text is that of a query, of a query inside it, or of one inside an ordering of the schema. -/
def Surroundings.Involves (env : Surroundings) (T u : Text) : Prop :=
  u = T ∨ u ∈ env.config.scanner.nestedQueries T ∨ ∃ c, env.Describes c ∧
    ∃ o ∈ c.orderings, u ∈ env.config.scanner.nestedQueries o.toList

theorem appendDefaultOrdering_safe {emitted : List AliasId} {c : ClauseSet}
    (hsub : ∀ c, env.Describes c → ∀ o ∈ c.orderings, env.config.scanner.Balanced o.toList →
      subquery.SafeIn env N o.toList)
    (hb : b.Informed env) (hos : ∀ o ∈ defaultOrderings graph emitted,
      (b.component? o.1).isSome = true ∧ ∃ c, env.Describes c ∧ o.2 ∈ c.orderings) :
    Safe env N b (appendDefaultOrdering env subquery graph emitted c) := by
  have hterms : Safe env N b ((defaultOrderings graph emitted).foldlM
      (fun terms o => appendOrdering env subquery terms o.1 o.2.toList) c.orderBy) := by
    apply stays_foldlM_of_knownIn hb
    intro o ho ts b₁ hb₁ hk
    obtain ⟨hid, component, hc, hmem⟩ := hos o ho
    exact appendOrdering_safe (hsub component hc o.2 hmem) hb₁ (hk o.1 hid)
  exact hterms.bind_pure

theorem planQuery_safe (henv : env.Complete) (hparse : Query.parse env.config.scanner T = .ok q)
    (hN : ∀ u, env.Involves T u → ∀ e, env.Misses u e → N e) :
    Safe env N {} (planQuery env q) := by
  have hread := Query.parse_spec hparse
  have hnests := resolveSubquery_nests env env.config.maxSubqueryDepth
  have hyields := resolveSubquery_yields env env.config.maxSubqueryDepth
  have hsub : (resolveSubquery env env.config.maxSubqueryDepth).SafeIn env N T :=
    resolveSubquery_safe henv hread.balanced (fun u hu => hN u (.inr (.inl hu))) _
  have hquery : Safe env N {} (resolveQuery env (resolveSubquery env env.config.maxSubqueryDepth) 0 q) :=
    resolveQuery_safe henv hnests hsub .empty rfl (.refl hread.balanced) hparse (hN T (.inl rfl))
  apply Safe.bind hquery
  rintro ⟨graph, c⟩ b₁ hb₁ _ hr
  have hsound := (resolveQuery_spec hyields .empty rfl (.refl hread.balanced) hread hr).sound
  have hjoins := (resolveQuery_over hnests .empty rfl hr).joins
  have hemits : graph.Emits c.reads (emittedAliases env.config graph c) :=
    emittedAliases_emits hsound.nodup hsound.declared hjoins.root
  have horderings : ∀ o ∈ defaultOrderings graph (emittedAliases env.config graph c),
      (b₁.component? o.1).isSome = true ∧ ∃ c, env.Describes c ∧ o.2 ∈ c.orderings := by
    intro o ho
    obtain ⟨n, hn, hid⟩ := mem_defaultOrderings ho
    obtain ⟨-, hordering⟩ := mem_defaultOrderings_of_emits hemits hjoins.nodes hsound.derived ho
    exact ⟨hid ▸ hb₁.ofGraph hjoins (List.mem_map_of_mem hn), hordering⟩
  have happend : Safe env N b₁ (appendDefaultOrdering env
      (resolveSubquery env env.config.maxSubqueryDepth) graph
      (emittedAliases env.config graph c) c) := by
    refine appendDefaultOrdering_safe (fun c' hc' o ho hbal => ?_) hb₁ horderings
    exact resolveSubquery_safe henv hbal (fun u hu => hN u (.inr (.inr ⟨c', hc', o, ho, hu⟩))) _
  apply Safe.bind happend
  intro c' b₂ hb₂ _ _
  refine .aliases hb₂ (fun b' hb' => ?_) (safe_pure hb₂)
  simp only [hb']

/-! ## Catalogs -/

namespace Catalog

variable {catalog : Catalog} {config : Config} {c : Component} {r : Relation}

theorem describe_eq (clause : Clause) {name : String} (h : catalog.component? name = some c) :
    (⟨catalog.describe, config⟩ : Surroundings).describe clause name = .ok c := by
  rw [Surroundings.describe, Except.mapError_eq_ok, describe_eq_ok, h]

theorem describe_eq_error {clause : Clause} {name : String} {e : QueryError}
    (h : (⟨catalog.describe, config⟩ : Surroundings).describe clause name = .error e) :
    e = .unknownComponent clause name ∧ catalog.component? name = none := by
  rw [Surroundings.describe] at h
  simp only [describe] at h
  split at h
  · cases h
  · rename_i hnone
    cases h
    exact ⟨rfl, hnone⟩

theorem requireKey_of_mem (clause : Clause) (hc : c ∈ catalog.components) :
    ∃ key, requireKey clause c = .ok key := by
  obtain ⟨column, columns, hkeys⟩ := List.exists_cons_of_ne_nil (primaryKeys_ne_nil hc)
  exact ⟨column.name, by rw [requireKey, Component.identifier?, hkeys]; rfl⟩

/-- The relations of a catalog lead to components, and what joins them has keys. -/
theorem complete (catalog : Catalog) (config : Config) :
    (⟨catalog.describe, config⟩ : Surroundings).Complete := by
  intro c hc r hr
  have hc := mem_of_describes hc
  cases leads_of_mem hc hr with
  | @direct t hk ht =>
    refine ⟨.direct t, Except.bind_eq_ok.2 ⟨t, describe_eq .join ht, ?_⟩⟩
    cases hkind : r.kind with
    | manyToMany => exact absurd hkind hk
    | oneToOne | oneToMany => rfl
  | @bridged t bridge name hk ht hname hbridge =>
    obtain ⟨sourceKey, hsource⟩ := requireKey_of_mem .join hc
    obtain ⟨targetKey, htarget⟩ := requireKey_of_mem .join (mem_of_component? ht)
    refine ⟨.bridged t bridge sourceKey targetKey,
      Except.bind_eq_ok.2 ⟨t, describe_eq .join ht, ?_⟩⟩
    rw [hk, hname]
    refine Except.bind_eq_ok.2 ⟨bridge, describe_eq .join hbridge, ?_⟩
    refine Except.bind_eq_ok.2 ⟨sourceKey, hsource, ?_⟩
    exact Except.bind_eq_ok.2 ⟨targetKey, htarget, rfl⟩

/-- Planning against a catalog never fails for what the catalog says of its components, and for a
component that it lacks only when a `FROM` clause starts with it. While a query is planned, whatever
an alias stands for has a component, so the planner never misses one: it comes to the same end
whatever further components it is told. -/
theorem plan_safe (catalog : Catalog) (config : Config) (T : Text) :
    let env : Surroundings := ⟨catalog.describe, config⟩
    (∀ e, plan env T = .error e → (∀ clause fault, e ≠ .metadata clause fault) ∧
      ∀ clause name, e = .unknownComponent clause name → clause = .from ∧
        catalog.component? name = none ∧ ∃ u q, env.Involves T u ∧
          Query.parse config.scanner u = .ok q ∧ q.source.root.path = [name]) ∧
    ∀ q, Query.parse config.scanner T = .ok q →
      Stays (fun b => ∀ userAlias id, b.resolver.lookup? userAlias = some id →
        (b.component? id).isSome = true) (fun _ => True) {} (planQuery env q) ∧
      ∀ extra, ((planQuery env q).run (Bindings.pad {} extra)).1 = plan env T := by
  intro env
  let N : QueryError → Prop := fun e => ∃ u, env.Involves T u ∧ env.Misses u e
  have hsafe (q : Query) (hparse : Query.parse config.scanner T = .ok q) :
      Safe env N {} (planQuery env q) :=
    planQuery_safe (complete catalog config) hparse fun u hu e he => ⟨u, hu, he⟩
  have hplan (q : Query) (hparse : Query.parse config.scanner T = .ok q) :
      plan env T = ((planQuery env q).run {}).1 := by
    rw [plan, show Query.parse env.config.scanner T = .ok q from hparse]
    rfl
  have herror (e : QueryError) (he : plan env T = .error e) : e.OfQuery ∨ N e := by
    cases hparse : Query.parse config.scanner T with
    | error e' =>
      obtain ⟨clause, fault, rfl⟩ := Query.parse_failsInForm e' hparse
      rw [plan, show Query.parse env.config.scanner T = _ from hparse] at he
      cases he
      exact .inl trivial
    | ok q => exact (hsafe q hparse).error (hplan q hparse ▸ he)
  refine ⟨fun e he => ⟨?_, ?_⟩, fun q hparse => ⟨?_, fun extra => ?_⟩⟩
  · rintro clause fault rfl
    rcases herror _ he with hquery | ⟨u, -, q, name, -, -, hdescribe⟩
    · exact hquery
    · cases (describe_eq_error hdescribe).1
  · rintro clause name rfl
    rcases herror _ he with hquery | ⟨u, hu, q, name', hparse, hname, hdescribe⟩
    · exact hquery.elim
    · obtain ⟨heq, hnone⟩ := describe_eq_error hdescribe
      cases heq
      exact ⟨rfl, hnone, u, q, hu, hparse, hname⟩
  · refine (hsafe q hparse).mono (fun b hb userAlias id => hb.lookup) fun _ _ => trivial
  · rw [(hsafe q hparse).run_pad, hplan q hparse]

end Catalog
end ObjectQuery
