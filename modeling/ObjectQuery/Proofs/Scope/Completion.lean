import ObjectQuery.Proofs.Scope.Query

/-! # What is added to a query

After its joins are chosen, a query is ordered as the schema says and its select list is completed.
What is added reads joins that are written: the order terms read the alias that the ordering is
about, when the schema names columns without aliases (`Surroundings.BareOrderings`), and records
that are made hang under records of other joins that are written.

* `appendDefaultOrdering_over`: the orderings of the schema;
* `completeSelection_reselects`: the completed select list. -/

namespace ObjectQuery

open Resolve

variable {env : Surroundings} {subquery : ResolveSubquery} {b b' : Bindings} {graph : JoinGraph}
  {c c' : ClauseSet} {id a s : AliasId} {n : JoinNode} {visible outer fresh : Set AliasId}
  {ts ts' : List OrderTerm} {emitted : List AliasId} {referenced : AliasSet}

/-! ## Joins that are written -/

namespace JoinGraph.Emits

theorem parent (h : graph.Emits referenced emitted) (hn : n ∈ graph.nodes)
    (hfits : n.Fits env graph outer fresh) (hid : n.id ∈ emitted) (hp : n.parent = some a) :
    a ∈ emitted := by
  by_cases ha : a = n.id
  · exact ha ▸ hid
  · exact h.closed n hn hid a (n.mem_dependsOn_of_parent hp ha) (hfits.parent a hp)

theorem source (h : graph.Emits referenced emitted)
    (hfits : ∀ n ∈ graph.nodes, n.Fits env graph outer fresh) (hn : n ∈ graph.nodes)
    (hid : n.id ∈ emitted) (hs : n.source = some s) : s ∈ emitted := by
  rcases (hfits n hn).linked s hs with hp | ⟨m, hm, hp, hs⟩
  · exact h.parent hn (hfits n hn) hid hp
  · exact h.parent hm (hfits m hm) (h.parent hn (hfits n hn) hid hp) hs

end JoinGraph.Emits

/-! ## Default orderings -/

/-- The items of the ordering consist of words that name no alias. -/
def Scanner.BareOrdering (s : Scanner) (ordering : Text) : Prop :=
  ∀ items, segmentItems s .orderBy 0 ⟨ordering, 0⟩ = .ok items → ∀ i ∈ items, ∀ parts,
    splitDirection s i.text = .ok parts → ∀ f ∈ Fragment.ofText s parts.1, f.IsBare

instance (s : Scanner) (ordering : Text) : Decidable (s.BareOrdering ordering) :=
  inferInstanceAs (Decidable (∀ items, segmentItems s .orderBy 0 ⟨ordering, 0⟩ = .ok items →
    ∀ i ∈ items, ∀ parts, splitDirection s i.text = .ok parts →
      ∀ f ∈ Fragment.ofText s parts.1, f.IsBare))

/-- The orderings of a component and of its relations. -/
def Component.orderings (c : Component) : List String :=
  c.orderBy.toList ++ c.relations.flatMap fun r => r.orderBy.toList ++ r.bridgeOrderBy.toList

/-- The orderings of the schema name columns without aliases. -/
def Surroundings.BareOrderings (env : Surroundings) : Prop :=
  ∀ c, env.Describes c → ∀ o ∈ c.orderings, env.config.scanner.BareOrdering o.toList

theorem Component.own_mem_orderings {component : Component} {text : String}
    (h : text ∈ component.orderBy) : text ∈ component.orderings :=
  List.mem_append_left _ (Option.mem_toList.2 h)

theorem Component.relation_mem_orderings {component : Component} {r : Relation} {text : String}
    (hr : r ∈ component.relations) (h : text ∈ r.orderBy ∨ text ∈ r.bridgeOrderBy) :
    text ∈ component.orderings := by
  refine List.mem_append_right _ (List.mem_flatMap.2 ⟨r, hr, ?_⟩)
  rw [List.mem_append, Option.mem_toList, Option.mem_toList]
  exact h

theorem mem_joinOrderings_of_emits {o : AliasId × String} (he : graph.Emits referenced emitted)
    (hfits : ∀ n ∈ graph.nodes, n.Fits env graph outer fresh)
    (hd : ∀ n ∈ graph.nodes, n.Derived env) (hn : n ∈ graph.nodes) (hid : n.id ∈ emitted)
    (h : o ∈ joinOrderings graph n) : o.1 ∈ emitted ∧ ∃ c, env.Describes c ∧ o.2 ∈ c.orderings := by
  simp only [joinOrderings] at h
  split at h
  · rename_i r hrole hr
    obtain ⟨c, hc, hmem⟩ := (hfits n hn).related r hr
    rcases List.mem_append.1 h with h | h
    · split at h
      · rename_i m hkind hm
        obtain ⟨text, htext, rfl⟩ := List.mem_map.1 h
        obtain ⟨p, hp, hm⟩ := Option.bind_eq_some_iff.1 hm
        have hmid : m.id = p := by simpa using List.find?_some hm
        refine ⟨hmid ▸ he.parent hn (hfits n hn) hid hp, ?_⟩
        rcases Option.or_eq_some_iff.1 (Option.mem_toList.1 htext) with ht | ⟨-, ht⟩
        · exact ⟨c, hc, c.relation_mem_orderings hmem (.inr ht)⟩
        · exact ⟨_, (hd m (List.mem_of_find?_eq_some hm)).described, m.component.own_mem_orderings ht⟩
      · cases h
    · obtain ⟨text, htext, rfl⟩ := List.mem_map.1 h
      refine ⟨hid, ?_⟩
      rcases Option.or_eq_some_iff.1 (Option.mem_toList.1 htext) with ht | ⟨-, ht⟩
      · exact ⟨c, hc, c.relation_mem_orderings hmem (.inl ht)⟩
      · exact ⟨_, (hd n hn).described, n.component.own_mem_orderings ht⟩
  · cases h

/-- The orderings that apply to a query are about joins that are written, and come from the
schema. -/
theorem mem_defaultOrderings_of_emits {o : AliasId × String} (he : graph.Emits referenced emitted)
    (hfits : ∀ n ∈ graph.nodes, n.Fits env graph outer fresh)
    (hd : ∀ n ∈ graph.nodes, n.Derived env) (h : o ∈ defaultOrderings graph emitted) :
    o.1 ∈ emitted ∧ ∃ c, env.Describes c ∧ o.2 ∈ c.orderings := by
  rcases List.mem_append.1 h with h | h
  · obtain ⟨n, hn, h⟩ := List.mem_flatMap.1 h
    obtain ⟨id, hid, hfind⟩ := List.mem_filterMap.1 hn
    have hnid : n.id = id := by simpa using List.find?_some hfind
    exact mem_joinOrderings_of_emits he hfits hd (List.mem_of_find?_eq_some hfind) (hnid ▸ hid) h
  · obtain ⟨text, htext, rfl⟩ := List.mem_map.1 h
    refine ⟨List.mem_of_head? he.root, _, (hd graph.root List.mem_cons_self).described, ?_⟩
    exact graph.root.component.own_mem_orderings (Option.mem_toList.1 htext)

/-- The occurrences and scopes stay, and the terms that are added read visible occurrences; those of
their subqueries are new. -/
structure OrdersOver (env : Surroundings) (visible : Set AliasId) (b : Bindings)
    (ts : List OrderTerm) (b' : Bindings) (ts' : List OrderTerm) : Prop where
  keeps : b.Keeps env b'
  added : ∀ t ∈ ts', t ∈ ts ∨ t.expr.Over visible (fun _ _ => False) (Set.Ico b.size b'.size)

theorem OrdersOver.refl (hb : b.Tidy env) : OrdersOver env visible b ts b ts :=
  ⟨.refl hb, fun _ ht => .inl ht⟩

theorem OrdersOver.trans {b₁ : Bindings} {ts₁ : List OrderTerm}
    (h : OrdersOver env visible b ts b₁ ts₁) (h' : OrdersOver env visible b₁ ts₁ b' ts') :
    OrdersOver env visible b ts b' ts' := by
  refine ⟨h.keeps.trans h'.keeps, fun t ht => ?_⟩
  rcases h'.added t ht with ht | ht
  · refine (h.added t ht).imp_right fun ht => ?_
    exact ht.mono le_rfl (fun _ _ h => h) (Set.Ico_subset_Ico_right h'.keeps.size_le)
  · exact .inr (ht.mono le_rfl (fun _ _ h => h) (Set.Ico_subset_Ico_left h.keeps.size_le))

theorem OrdersBy.over {items : List Item} (h : OrdersBy env subquery id items ts b ts' b')
    (hsub : subquery.Nests env) (hb : b.Tidy env) (hid : id ∈ visible)
    (hseen : (∀ i ∈ items, ∀ t direction,
      splitDirection env.config.scanner i.text = .ok (t, direction) →
      ∀ f ∈ Fragment.ofText env.config.scanner t, f.IsBare) ∨ b.Sees ⊆ visible) :
    OrdersOver env visible b ts b' ts' := by
  have hbare : BareWords.Within { default := some id } visible fun _ _ => False :=
    ⟨by rintro _ ⟨⟩; exact hid, nofun⟩
  induction h with
  | nil => exact .refl hb
  | @cons i items t ts ts₁ ts' b b₁ b' _ ht hts _ ih =>
    obtain ⟨hkeeps, ht⟩ := resolveOrderItem_over hsub hb
      (hseen.imp_left fun hf => hf i List.mem_cons_self) hbare ht
    have hstep : OrdersOver env visible b ts b₁ ts₁ := by
      refine ⟨hkeeps, fun u hu => ?_⟩
      rcases hts with rfl | rfl
      · exact .inl hu
      · rcases List.mem_append.1 hu with hu | hu
        · exact .inl hu
        · exact .inr (List.mem_singleton.1 hu ▸ ht)
    exact hstep.trans (ih hkeeps.tidy
      (hseen.imp (fun hf j hj => hf j (List.mem_cons_of_mem _ hj)) (hkeeps.sees_eq ▸ ·)))

theorem appendOrdering_over {ordering : Text} (hsub : subquery.Nests env) (hb : b.Tidy env)
    (hid : id ∈ visible) (hseen : env.config.scanner.BareOrdering ordering ∨ b.Sees ⊆ visible)
    (h : (appendOrdering env subquery ts id ordering).Runs b ts' b') :
    OrdersOver env visible b ts b' ts' := by
  obtain ⟨items, hitems, h⟩ := runs_appendOrdering h
  exact h.over hsub hb hid (hseen.imp_left fun hbare i hi t direction h =>
    hbare items hitems i hi (t, direction) h)

theorem appendOrderings_over {os : List (AliasId × String)} (hsub : subquery.Nests env)
    (hb : b.Tidy env) (hos : ∀ o ∈ os, o.1 ∈ visible ∧
      (env.config.scanner.BareOrdering o.2.toList ∨ b.Sees ⊆ visible))
    (h : Runs (os.foldlM (fun terms o => appendOrdering env subquery terms o.1 o.2.toList) ts)
      b ts' b') : OrdersOver env visible b ts b' ts' := by
  refine runs_foldlM_keeps (I := fun us c => OrdersOver env visible b ts c us) ?_ (.refl hb) h
  intro o ho us b₁ us' b₂ hover h
  obtain ⟨hid, hseen⟩ := hos o ho
  exact hover.trans (appendOrdering_over hsub hover.keeps.tidy hid
    (hseen.imp_right (hover.keeps.sees_eq ▸ ·)) h)

/-- The orderings of the schema refer to no select expressions; when they name columns without
aliases, they read joins that are written. -/
theorem appendDefaultOrdering_over (hsub : subquery.Nests env) (hb : b.Tidy env)
    (he : graph.Emits referenced emitted) (hfits : ∀ n ∈ graph.nodes, n.Fits env graph outer fresh)
    (hd : ∀ n ∈ graph.nodes, n.Derived env)
    (h : (appendDefaultOrdering env subquery graph emitted c).Runs b c' b') :
    b.Keeps env b' ∧
      (∀ t ∈ c'.orderBy, t ∈ c.orderBy ∨
        t.expr.Over Set.univ (fun _ _ => False) (Set.Ico b.size b'.size)) ∧
      (env.BareOrderings → ∀ t ∈ c'.orderBy, t ∈ c.orderBy ∨
        t.expr.Over {a | a ∈ emitted} (fun _ _ => False) (Set.Ico b.size b'.size)) := by
  obtain ⟨ts, _, h1, h2⟩ := runs_bind.1 h
  obtain ⟨rfl, rfl⟩ := runs_pure.1 h2
  -- whatever the schema orders by, the occurrences of the query stay what they are
  have hall : ∀ o ∈ defaultOrderings graph emitted, o.1 ∈ (Set.univ : Set AliasId) ∧
      (env.config.scanner.BareOrdering o.2.toList ∨ b.Sees ⊆ Set.univ) :=
    fun _ _ => ⟨trivial, .inr (Set.subset_univ _)⟩
  have hadded := appendOrderings_over hsub hb hall h1
  refine ⟨hadded.keeps, hadded.added, fun hbare => ?_⟩
  refine (appendOrderings_over hsub hb (fun o ho => ?_) h1).added
  obtain ⟨hmem, component, hc, ho⟩ := mem_defaultOrderings_of_emits he hfits hd ho
  exact ⟨hmem, .inl (hbare component hc _ ho)⟩

/-! ## Completed select lists -/

section
variable {owners : Set AliasId}

theorem missingFields_owners {items : List SelectItem} {required : List (AliasId × String)}
    (h : ∀ r ∈ required, r.1 ∈ owners) :
    ∀ i ∈ missingFields graph items required, ∃ f, i = .field f ∧ f.owner ∈ owners := by
  induction required generalizing items with
  | nil => exact nofun
  | cons r required ih =>
    obtain ⟨id, column⟩ := r
    obtain ⟨hid, hrest⟩ := List.forall_mem_cons.1 h
    simp only [missingFields]
    split
    · exact ih hrest
    · split
      · exact ih hrest
      · exact List.forall_mem_cons.2 ⟨⟨_, rfl, hid⟩, ih hrest⟩

theorem completeSelection_reselects (h : ∀ r ∈ requiredFields graph c, r.1 ∈ owners) :
    Reselects owners c.select (completeSelection graph emitted c).select := by
  have hmissing : ∀ i ∈ missingFields graph c.select (requiredFields graph c),
      ∃ f, i = .field f ∧ f.owner ∈ owners := missingFields_owners h
  refine ⟨fun o k e name => ?_, fun f hf => ?_⟩
  · refine mem_select_completeSelection.trans (or_iff_left fun hi => ?_)
    obtain ⟨f, he, -⟩ := hmissing _ hi
    cases he
  · rcases mem_select_completeSelection.1 hf with hf | hf
    · exact .inr ⟨f, hf, rfl⟩
    · obtain ⟨f', he, ho⟩ := hmissing _ hf
      cases he
      exact .inl ho

end

/-! ## Records that are made -/

/-- Every row of the query is a record: it neither groups rows nor calls an aggregate function. -/
def ClauseSet.Plain (c : ClauseSet) : Prop := c.hasAggregates = false ∧ c.groupBy = []

theorem ClauseSet.plain_iff : c.Plain ↔ (c.hasAggregates || !c.groupBy.isEmpty) = false := by
  rw [Plain, Bool.or_eq_false_iff, Bool.not_eq_false', List.isEmpty_iff]

theorem mem_foldl_ancestors {as : List AliasId} {aliases : AliasSet} :
    a ∈ as.foldl (fun s x => s ∪ AliasSet.ofList (graph.ancestors x)) aliases ↔
      a ∈ aliases ∨ ∃ x ∈ as, a ∈ graph.ancestors x := by
  induction as generalizing aliases with
  | nil => simp
  | cons x as ih =>
    rw [List.foldl_cons, ih, AliasSet.mem_union, AliasSet.mem_ofList, List.exists_mem_cons_iff,
      or_assoc]

/-- Records are made for the aliases of the select list and, where every row is a record, for those
that hold them. -/
theorem mem_hydratedAliases_iff : a ∈ hydratedAliases graph c ↔
    ∃ i ∈ c.select, a = i.owner ∨ c.Plain ∧ a ∈ graph.ancestors i.owner := by
  have hselected : a ∈ AliasSet.ofList (c.select.map (·.owner)) ↔ ∃ i ∈ c.select, a = i.owner := by
    simp only [AliasSet.mem_ofList, List.mem_map, eq_comm]
  rw [hydratedAliases]
  split
  · rename_i hnot
    have hplain : ¬c.Plain := fun hp => by rw [ClauseSet.plain_iff.1 hp] at hnot; cases hnot
    simp only [hselected, hplain, false_and, or_false]
  · rename_i hnot
    have hplain : c.Plain := ClauseSet.plain_iff.2 (Bool.eq_false_iff.2 hnot)
    have hlist (x : AliasId) : x ∈ (AliasSet.ofList (c.select.map (·.owner))).toList ↔
        x ∈ c.select.map (·.owner) := AliasSet.mem_ofList
    rw [mem_foldl_ancestors, hselected]
    simp only [hlist, List.mem_map, hplain, true_and, exists_exists_and_eq_and, and_or_left,
      exists_or]

/-- A column has to be selected because rows are grouped by it, or for the records of its alias. -/
theorem mem_groupedKeys_or_hydratedAliases {r : AliasId × String}
    (hr : r ∈ requiredFields graph c) :
    r ∈ groupedKeys graph c.groupBy ∨ r.1 ∈ hydratedAliases graph c := by
  rcases List.mem_append.1 hr with hr | hr
  · refine (List.mem_append.1 hr).imp_right fun hr => ?_
    split at hr
    · cases hr
    · obtain ⟨a, ha, hr⟩ := List.mem_flatMap.1 hr
      obtain ⟨key, -, rfl⟩ := List.mem_map.1 hr
      exact ha
  · obtain ⟨n, -, hr⟩ := List.mem_filterMap.1 hr
    split at hr
    · rename_i hn
      obtain ⟨column, -, rfl⟩ := Option.map_eq_some_iff.1 hr
      exact .inr hn
    · cases hr

/-- With the alias of a node the set has that of the node whose records hold its records. -/
def JoinGraph.ClosedUpward (g : JoinGraph) (s : Set AliasId) : Prop :=
  ∀ n ∈ g.nodes, n.id ∈ s → ∀ a ∈ n.source, a ∈ s

/-- The records that hold the records of a join that is written are those of joins that are
written. -/
theorem JoinGraph.Emits.closedUpward (h : graph.Emits referenced emitted)
    (hfits : ∀ n ∈ graph.nodes, n.Fits env graph outer fresh) :
    graph.ClosedUpward {a | a ∈ emitted} :=
  fun _ hn hid _ hs => h.source hfits hn hid hs

/-- The records of `a` hold those of `id`. -/
def JoinGraph.Above (g : JoinGraph) (id a : AliasId) : Prop := (g.node? id).bind (·.source) = some a

theorem JoinGraph.ClosedUpward.above {within : Set AliasId} (h : graph.ClosedUpward within)
    (hid : id ∈ within) (ha : graph.Above id a) : a ∈ within := by
  obtain ⟨n, hn, hs⟩ := Option.bind_eq_some_iff.1 ha
  have hnid : n.id = id := by simpa using List.find?_some hn
  exact h n (List.mem_of_find?_eq_some hn) (hnid ▸ hid) a hs

section
variable {within : Set AliasId} (hup : ∀ id a, id ∈ within → graph.Above id a → a ∈ within)
include hup

theorem mem_ancestorsFrom {fuel : Nat} {met : List AliasId} {next : Option AliasId}
    (hmet : ∀ a ∈ met, a ∈ within) (hnext : ∀ a ∈ next, a ∈ within) :
    ∀ a ∈ graph.ancestorsFrom fuel met next, a ∈ within := by
  induction fuel generalizing met next with
  | zero => exact hmet
  | succ fuel ih =>
    cases next with
    | none => exact hmet
    | some id =>
      simp only [JoinGraph.ancestorsFrom]
      split
      · exact hmet
      · refine ih (List.forall_mem_append.2 ⟨hmet, ?_⟩) fun a ha => ?_
        · exact List.forall_mem_singleton.2 (hnext id rfl)
        · exact hup id a (hnext id rfl) ha

theorem mem_ancestors (hid : id ∈ within) : ∀ a ∈ graph.ancestors id, a ∈ within :=
  mem_ancestorsFrom hup nofun fun a ha => hup id a hid ha

end

section
variable {within : Set AliasId} (hup : graph.ClosedUpward within)
include hup

theorem mem_hydratedAliases (hc : ∀ i ∈ c.select, i.owner ∈ within) :
    ∀ a ∈ hydratedAliases graph c, a ∈ within := by
  intro a ha
  obtain ⟨i, hi, rfl | ⟨-, ha⟩⟩ := mem_hydratedAliases_iff.1 ha
  · exact hc i hi
  · exact mem_ancestors (fun _ _ => hup.above) (hc i hi) a ha

/-- The columns that have to be selected are of aliases that the clauses read, and of those whose
records hold theirs. -/
theorem mem_requiredFields (hc : ∀ a ∈ c.reads, a ∈ within) :
    ∀ r ∈ requiredFields graph c, r.1 ∈ within := by
  have hhydrated := mem_hydratedAliases hup fun i hi =>
    hc _ (ClauseSet.mem_reads.2 (.inl ⟨i, hi, rfl⟩))
  intro r hr
  rcases mem_groupedKeys_or_hydratedAliases hr with hr | hr
  · obtain ⟨e, hmem, hcol⟩ := List.mem_filterMap.1 (List.mem_filter.1 hr).1
    refine hc _ (ClauseSet.mem_reads.2 (.inr ⟨e, ?_, e.mem_reads_of_asColumn? hcol⟩))
    simp only [ClauseSet.laterExprs, List.mem_append]
    exact .inr (.inl (.inl hmem))
  · exact hhydrated _ hr

end

end ObjectQuery
