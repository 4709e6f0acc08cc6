import ObjectQuery.Proofs.Plan.Rooted
import ObjectQuery.Proofs.Spelling.Join

/-! # How resolved joins hang together and are spelled

While a graph is built, every join hangs under an earlier node that is no bridge
(`JoinGraph.Rooted`), what is remembered of an alias is the component of its node, and the
predicates of the joins are spelled well (`JoinGraph.Placed`).

* `expandRelation_placed`: the joins of a relation;
* `resolveJoin_placed`, `resolveFrom_placed`: joins of a `FROM` clause. -/

namespace ObjectQuery

open Resolve

variable {env : Surroundings} {ok : Spelling} {subquery : ResolveSubquery} {param : Nat}
  {b b' : Bindings} {g g' : JoinGraph} {id source : AliasId} {kind : JoinKind}
  {head userAlias : String} {n : JoinNode} {ns : List JoinNode} {c : Component}

/-! ## Graphs -/

/-- What holds of a graph while it is built. -/
structure JoinGraph.Placed (env : Surroundings) (ok : Spelling) (b : Bindings) (g : JoinGraph) :
    Prop where
  recorded : b.Recorded env
  rooted : g.Rooted
  scope : ∀ e ∈ b.resolver.scope, e.2 ∈ g.records
  apart : ∀ a ∈ AliasScope.bound b.resolver.outer, a ∉ g.aliases
  components : ∀ n ∈ g.nodes, b.component? n.id = some n.component
  indexed : ∀ n ∈ g.nodes, ∀ column ∈ n.indexBy, ∃ x ∈ n.component.columns, x.name = column
  exprs : ∀ n ∈ g.nodes, ∀ e ∈ n.exprs, e.Spelled b.component? ok
    ({a | a ∈ g.aliases} ∪ AliasScope.bound b.resolver.outer)

namespace JoinGraph

theorem mem_nodes_add : n ∈ (g.add ns).nodes ↔ n ∈ g.nodes ∨ n ∈ ns := by
  rw [nodes_add, List.mem_append]

theorem records_add :
    (g.add ns).records = g.records ++ (ns.filter (·.role != .bridge)).map (·.id) := by
  rw [records, nodes_add, List.filter_append, List.map_append]
  rfl

theorem records_update {f : JoinNode → JoinNode} (hid : ∀ n, (f n).id = n.id)
    (hrole : ∀ n, (f n).role = n.role) : (g.update id f).records = g.records := by
  have hpairs : (g.update id f).nodes.map (fun n => (n.id, n.role)) =
      g.nodes.map fun n => (n.id, n.role) := map_nodes_update _ fun n => by rw [hid n, hrole n]
  have hrecords (g : JoinGraph) : g.records =
      ((g.nodes.map fun n => (n.id, n.role)).filter (·.2 != .bridge)).map (·.1) := by
    rw [List.filter_map, List.map_map]
    rfl
  rw [hrecords, hpairs, ← hrecords]

theorem root_id_update {f : JoinNode → JoinNode} (hid : ∀ n, (f n).id = n.id) :
    (g.update id f).root.id = g.root.id := by
  rw [update]
  split
  · exact hid g.root
  · rfl

namespace Rooted

/-- A graph with new nodes, which hang under nodes that it has. -/
theorem add {size : Nat} (h : g.Rooted) (hlt : ∀ a ∈ g.aliases, a < size)
    (hnew : ∀ n ∈ ns, size ≤ n.id) (hsource : ∀ n ∈ ns, ∃ s ∈ g.records, n.source = some s)
    (hrecords : ((ns.filter (·.role != .bridge)).map (·.id)).Pairwise (· < ·)) :
    (g.add ns).Rooted := by
  refine ⟨h.root, fun n hn => ?_, fun n hn s hs => ?_, ?_⟩
  · rcases mem_nodes_add.1 hn with hn | hn
    · exact h.top n hn
    · obtain ⟨s, -, hs⟩ := hsource n hn
      have hne : n.id ≠ g.root.id := fun he =>
        Nat.not_lt.2 (hnew n hn) (he ▸ hlt _ List.mem_cons_self)
      rw [hs]
      exact iff_of_false nofun hne
  · rw [records_add]
    rcases mem_nodes_add.1 hn with hn | hn
    · exact ⟨List.mem_append_left _ (h.under n hn s hs).1, (h.under n hn s hs).2⟩
    · obtain ⟨s', hs', he⟩ := hsource n hn
      cases he.symm.trans hs
      exact ⟨List.mem_append_left _ hs',
        Nat.lt_of_lt_of_le (hlt s (mem_aliases_of_mem_records hs')) (hnew n hn)⟩
  · rw [records_add]
    refine List.pairwise_append.2 ⟨h.ascending, hrecords, fun a ha a' ha' => ?_⟩
    obtain ⟨n, hn, rfl⟩ := List.mem_map.1 ha'
    exact Nat.lt_of_lt_of_le (hlt a (mem_aliases_of_mem_records ha))
      (hnew n (List.mem_filter.1 hn).1)

theorem update {f : JoinNode → JoinNode} (h : g.Rooted)
    (huse : ∀ n, (f n).id = n.id ∧ (f n).role = n.role ∧ (f n).source = n.source) :
    (g.update id f).Rooted := by
  have hrecords : (g.update id f).records = g.records :=
    records_update (fun n => (huse n).1) fun n => (huse n).2.1
  have hall {P : JoinNode → Prop} (hP : ∀ n ∈ g.nodes, P n) (hf : ∀ n, P n → P (f n)) :
      ∀ n ∈ (g.update id f).nodes, P n := by
    intro n hn
    rcases mem_nodes_update hn with hn | ⟨m, hm, -, rfl⟩
    · exact hP n hn
    · exact hf m (hP m hm)
  refine ⟨?_, ?_, ?_, hrecords ▸ h.ascending⟩
  · rw [JoinGraph.update]
    split
    · exact (huse g.root).2.1 ▸ h.root
    · exact h.root
  · rw [root_id_update fun n => (huse n).1]
    exact hall h.top fun n hn => by rw [(huse n).1, (huse n).2.2]; exact hn
  · rw [hrecords]
    exact hall h.under fun n hn => by rw [(huse n).1, (huse n).2.2]; exact hn

end Rooted

end JoinGraph

/-- A node that is a new occurrence and is held by the records of a source. -/
structure JoinNode.HangsUnder (source : AliasId) (b b' : Bindings) (n : JoinNode) : Prop where
  new : b.size ≤ n.id
  known : b'.component? n.id = some n.component
  source_eq : n.source = some source
  index : n.indexBy = none

namespace JoinGraph.Placed

open JoinGraph

theorem lt (h : g.Placed env ok b) : ∀ a ∈ g.aliases, a < b.size := by
  intro a ha
  obtain ⟨n, hn, rfl⟩ := List.mem_map.1 ha
  exact h.recorded.lt (h.components n hn)

/-- Aliases in scope stand for nodes of the graph that are no bridges, or for occurrences in the
queries around it. -/
theorem sees_records (h : g.Placed env ok b) :
    b.Sees ⊆ {a | a ∈ g.records} ∪ AliasScope.bound b.resolver.outer := by
  rintro a ⟨scope, hscope, name, hmem⟩
  rcases List.mem_cons.1 hscope with rfl | hscope
  · exact .inl (h.scope _ hmem)
  · exact .inr ⟨scope, hscope, name, hmem⟩

theorem sees (h : g.Placed env ok b) :
    b.Sees ⊆ {a | a ∈ g.aliases} ∪ AliasScope.bound b.resolver.outer :=
  h.sees_records.trans (Set.union_subset_union_left _ fun _ => mem_aliases_of_mem_records)

theorem steady (h : g.Placed env ok b) (hs : b.Steady env b') : g.Placed env ok b' := by
  refine ⟨hs.recorded, h.rooted, hs.scope_eq ▸ h.scope, hs.outer_eq ▸ h.apart,
    fun n hn => hs.components _ _ (h.components n hn), h.indexed, fun n hn e he => ?_⟩
  rw [hs.outer_eq]
  exact (h.exprs n hn e he).mono hs.components le_rfl

/-- A node of the graph has the component that is remembered for its alias. -/
theorem component_eq (h : g.Placed env ok b) (hn : n ∈ g.nodes)
    (hc : b.component? n.id = some c) : n.component = c :=
  Option.some_inj.1 ((h.components n hn).symm.trans hc)

/-- New nodes, each of which is a new occurrence that hangs under one of the graph. -/
theorem add (h : g.Placed env ok b) (hr : b.Retains env b') (hs : source ∈ g.records)
    (hscope : ∀ e ∈ b'.resolver.scope, e ∈ b.resolver.scope ∨ e.2 ∈ (g.add ns).records)
    (hns : ∀ n ∈ ns, n.HangsUnder source b b')
    (hrecords : ((ns.filter (·.role != .bridge)).map (·.id)).Pairwise (· < ·))
    (hexprs : ∀ n ∈ ns, ∀ e ∈ n.exprs, e.Spelled b'.component? ok
      ({a | a ∈ (g.add ns).aliases} ∪ AliasScope.bound b.resolver.outer)) :
    (g.add ns).Placed env ok b' := by
  have hrooted : (g.add ns).Rooted := h.rooted.add h.lt (fun n hn => (hns n hn).new)
    (fun n hn => ⟨source, hs, (hns n hn).source_eq⟩) hrecords
  refine ⟨hr.recorded, hrooted, fun e he => ?_, ?_, fun n hn => ?_, fun n hn => ?_,
    fun n hn e he => ?_⟩
  · refine (hscope e he).elim (fun he => ?_) id
    rw [records_add]
    exact List.mem_append_left _ (h.scope e he)
  · rw [hr.outer_eq, aliases_add]
    intro a ha hmem
    rcases List.mem_append.1 hmem with hmem | hmem
    · exact h.apart a ha hmem
    · obtain ⟨n, hn, rfl⟩ := List.mem_map.1 hmem
      obtain ⟨scope, hs, name, hs'⟩ := ha
      exact Nat.not_lt.2 (hns n hn).new
        (h.recorded.seen n.id ⟨scope, List.mem_cons_of_mem _ hs, name, hs'⟩)
  · rcases mem_nodes_add.1 hn with hn | hn
    · exact hr.components _ _ (h.components n hn)
    · exact (hns n hn).known
  · rcases mem_nodes_add.1 hn with hn | hn
    · exact h.indexed n hn
    · rw [(hns n hn).index]
      exact nofun
  · rw [hr.outer_eq]
    rcases mem_nodes_add.1 hn with hn | hn
    · refine (h.exprs n hn e he).mono hr.components (Set.union_subset_union_left _ fun a ha => ?_)
      show a ∈ (g.add ns).aliases
      rw [aliases_add]
      exact List.mem_append_left _ ha
    · exact hexprs n hn e he

/-- A change of a node that keeps what it stands for, and keys or joins it well. -/
theorem update {f : JoinNode → JoinNode} (h : g.Placed env ok b)
    (huse : ∀ n, (f n).id = n.id ∧ (f n).role = n.role ∧ (f n).source = n.source ∧
      (f n).component = n.component)
    (hindex : ∀ n ∈ g.nodes, n.id = id → ∀ column ∈ (f n).indexBy,
      column ∈ n.indexBy ∨ ∃ x ∈ n.component.columns, x.name = column)
    (hexprs : ∀ n, ∀ e ∈ (f n).exprs, e ∈ n.exprs ∨ e.Spelled b.component? ok
      ({a | a ∈ g.aliases} ∪ AliasScope.bound b.resolver.outer)) :
    (g.update id f).Placed env ok b := by
  have haliases : (g.update id f).aliases = g.aliases := map_nodes_update _ fun n => (huse n).1
  have hrecords : (g.update id f).records = g.records :=
    records_update (fun n => (huse n).1) fun n => (huse n).2.1
  have hrooted : (g.update id f).Rooted :=
    h.rooted.update fun n => ⟨(huse n).1, (huse n).2.1, (huse n).2.2.1⟩
  have hall {P : JoinNode → Prop} (hP : ∀ n ∈ g.nodes, P n)
      (hf : ∀ n ∈ g.nodes, n.id = id → P (f n)) : ∀ n ∈ (g.update id f).nodes, P n := by
    intro n hn
    rcases mem_nodes_update hn with hn | ⟨m, hm, hid, rfl⟩
    · exact hP n hn
    · exact hf m hm hid
  refine ⟨h.recorded, hrooted, hrecords ▸ h.scope, haliases ▸ h.apart,
    hall h.components fun n hn _ => ?_, hall h.indexed fun n hn hid column hc => ?_, ?_⟩
  · rw [(huse n).1, (huse n).2.2.2]
    exact h.components n hn
  · rw [(huse n).2.2.2]
    exact (hindex n hn hid column hc).elim (h.indexed n hn column) fun hx => hx
  · rw [haliases]
    exact hall h.exprs fun n hn _ e he => (hexprs n e he).elim (h.exprs n hn e) fun he => he

end JoinGraph.Placed

/-! ## Relations -/

/-- What a step of a join path does to a graph that is placed. -/
structure JoinGraph.Reaches (env : Surroundings) (ok : Spelling) (b : Bindings) (g' : JoinGraph)
    (id : AliasId) (b' : Bindings) : Prop where
  placed : g'.Placed env ok b'
  retains : b.Retains env b'
  target : id ∈ g'.records

theorem JoinNode.mem_exprs_of_joined {e structural : Expr} (hs : n.structural = some structural)
    (hc : n.condition = none) (he : e ∈ n.exprs) : e = structural ∨ e ∈ n.extra := by
  simpa [exprs, hs, hc] using he

/-- The target of a relation without a bridge. -/
theorem JoinGraph.Placed.addTarget (hg : g.Placed env ok b)
    (hgains : b.Gains env n.id n.component b')
    (hscope : b'.resolver.scope = (userAlias, n.id) :: b.resolver.scope) (hs : source ∈ g.records)
    (hrole : n.role ≠ .bridge) (hsource : n.source = some source) (hindex : n.indexBy = none)
    (hexprs : (∀ a ∈ [source, n.id], a ∈ (g.add [n]).aliases) → ∀ e ∈ n.exprs,
      e.Spelled b'.component? ok
        ({a | a ∈ (g.add [n]).aliases} ∪ AliasScope.bound b.resolver.outer)) :
    (g.add [n]).Reaches env ok b n.id b' := by
  have hfilter : [n].filter (·.role != .bridge) = [n] := by simp [hrole]
  have hid : n.id ∈ (g.add [n]).records := by simp [JoinGraph.records_add, hrole]
  refine ⟨hg.add hgains.toRetains hs (fun e he => ?_) (List.forall_mem_singleton.2 ?_) ?_
    (List.forall_mem_singleton.2 (hexprs ?_)), hgains.toRetains, hid⟩
  · rw [hscope] at he
    exact (List.mem_cons.1 he).elim (fun he => .inr (he ▸ hid)) .inl
  · exact ⟨hgains.id_eq.ge, hgains.known, hsource, hindex⟩
  · rw [hfilter]
    exact List.pairwise_singleton _ _
  · have hs := JoinGraph.mem_aliases_of_mem_records hs
    simp [JoinGraph.aliases_add, hs]

/-- The bridge of a relation and the target behind it. -/
theorem JoinGraph.Placed.addBridge {k : JoinNode} {b₁ : Bindings} (hg : g.Placed env ok b)
    (hgains : b.Gains env n.id n.component b₁) (hgains' : b₁.Gains env k.id k.component b')
    (hscope : b'.resolver.scope = (userAlias, n.id) :: b.resolver.scope) (hs : source ∈ g.records)
    (hrole : n.role ≠ .bridge) (hbridge : k.role = .bridge) (hsource : n.source = some source)
    (hsource' : k.source = some source) (hindex : n.indexBy = none) (hindex' : k.indexBy = none)
    (hexprs : (∀ a ∈ [source, k.id, n.id], a ∈ (g.add [k, n]).aliases) → ∀ j ∈ [k, n],
      ∀ e ∈ j.exprs, e.Spelled b'.component? ok
        ({a | a ∈ (g.add [k, n]).aliases} ∪ AliasScope.bound b.resolver.outer)) :
    (g.add [k, n]).Reaches env ok b n.id b' := by
  have hfilter : [k, n].filter (·.role != .bridge) = [n] := by simp [hrole, hbridge]
  have hid : n.id ∈ (g.add [k, n]).records := by rw [JoinGraph.records_add, hfilter]; simp
  have hretains := hgains.toRetains.trans hgains'.toRetains
  refine ⟨hg.add hretains hs (fun e he => ?_)
    (List.forall_mem_cons.2 ⟨?_, List.forall_mem_singleton.2 ?_⟩) ?_ (hexprs ?_), hretains, hid⟩
  · rw [hscope] at he
    exact (List.mem_cons.1 he).elim (fun he => .inr (he ▸ hid)) .inl
  · exact ⟨hgains'.id_eq ▸ hgains.size_le, hgains'.known, hsource', hindex'⟩
  · exact ⟨hgains.id_eq.ge, hgains'.components _ _ hgains.known, hsource, hindex⟩
  · rw [hfilter]
    exact List.pairwise_singleton _ _
  · have hs := JoinGraph.mem_aliases_of_mem_records hs
    simp [JoinGraph.aliases_add, hs]

theorem expandRelation_placed {r : Relation} (hok : env.Spells ok) (hg : g.Placed env ok b)
    (hs : source ∈ g.records) (hc : b.component? source = some c) (hr : r ∈ c.relations)
    (hnew : b.resolver.lookupLocal? userAlias = none)
    (h : (expandRelation env g source c r kind userAlias).Runs b (g', id) b') :
    g'.Reaches env ok b id b' ∧ b'.resolver.scope = (userAlias, id) :: b.resolver.scope := by
  have hdescribed := hg.recorded.describes hc
  cases runs_expandRelation h with
  | @direct t _ _ hx hbind =>
    have hspelled := hok.relation c hdescribed r hr _ hx
    have hleads := Expansion.ofRelation_sound hdescribed hx
    obtain ⟨hgains, hscope⟩ := bindComponent_gains hg.recorded hleads hnew hbind
    refine ⟨hg.addTarget hgains hscope hs nofun rfl rfl fun hmem e he => ?_, hscope⟩
    have hv {a : AliasId} (ha : a ∈ [source, id]) := hmem a ha
    have hc' := hgains.components _ _ hc
    rcases JoinNode.mem_exprs_of_joined rfl rfl he with rfl | he
    · exact structuralPredicate_spelled (.inl (hv (by simp))) hc' (.inl (hv (by simp)))
        hgains.known hspelled
    · exact extraPredicates_spelled (.inl (hv (by simp))) hc' (.inl (hv (by simp))) hgains.known
        (hok.test t hleads) (fun key => hok.key hleads) (fun hself => (hspelled.2.2 hself).2.2) e he
  | @bridged t _ _ _ _ bridge _ _ hx hbind hassign =>
    obtain ⟨hsk, htk, hlocal, hforeign, hself⟩ := hok.relation c hdescribed r hr _ hx
    obtain ⟨ht, hbridge, -, -⟩ := Expansion.ofRelation_sound hdescribed hx
    obtain ⟨hgains, hscope⟩ := bindComponent_gains hg.recorded ht hnew hbind
    obtain ⟨hgains', hscope'⟩ := assignComponent_gains hgains.recorded hbridge hassign
    have hscope := hscope'.trans hscope
    refine ⟨hg.addBridge hgains hgains' hscope hs nofun rfl rfl rfl rfl rfl
      fun hmem j hj e he => ?_, hscope⟩
    have hc' := hgains'.components _ _ (hgains.components _ _ hc)
    have ht' := hgains'.components _ _ hgains.known
    have hv {a : AliasId} (ha : a ∈ [source, bridge, id]) := hmem a ha
    have hsource := hv (a := source) (by simp)
    simp only [List.mem_cons, List.not_mem_nil, or_false] at hj
    rcases hj with rfl | rfl
    · rcases JoinNode.mem_exprs_of_joined rfl rfl he with rfl | he
      · exact bridgePredicate_spelled (.inl (hv (by simp))) hgains'.known hlocal hforeign _
          (.of_known (.inl hsource) hc' hsk)
      · cases he
    · rcases JoinNode.mem_exprs_of_joined rfl rfl he with rfl | he
      · exact targetPredicate_spelled (.inl (hv (by simp))) hgains'.known hlocal hforeign _
          (.of_known (.inl (hv (by simp))) ht' htk)
      · exact extraPredicates_spelled (.inl hsource) hc' (.inl (hv (by simp))) ht'
          (hok.test t ht) (fun key => hok.key ht) hself e he

/-! ## Paths -/

theorem JoinGraph.Reaches.trans {b₁ : Bindings} {g₁ : JoinGraph} {id₁ : AliasId}
    (h : g₁.Reaches env ok b id₁ b₁) (h' : g'.Reaches env ok b₁ id b') :
    g'.Reaches env ok b id b' :=
  ⟨h'.placed, h.retains.trans h'.retains, h'.target⟩

theorem resolveStep_placed {relation : String} {id' : AliasId} (hok : env.Spells ok)
    (hg : g.Placed env ok b) (hid : id ∈ g.records)
    (hnew : b.resolver.lookupLocal? userAlias = none)
    (h : (resolveStep env g kind head id relation userAlias).Runs b (g', id') b') :
    g'.Reaches env ok b id' b' ∧ b'.resolver.scope = (userAlias, id') :: b.resolver.scope := by
  obtain ⟨c, hc, r, hr, h⟩ := runs_resolveStep h
  exact expandRelation_placed hok hg hid hc (List.mem_of_find?_eq_some hr) hnew h

theorem resolvePath_placed {walked : String} {relations : List String} {id' : AliasId}
    (hok : env.Spells ok) (hg : g.Placed env ok b) (hid : id ∈ g.records)
    (ha : Text.isIdentifier userAlias.toList = true)
    (hnew : b.resolver.lookupLocal? userAlias = none)
    (h : (resolvePath env kind head userAlias g id walked relations).Runs b (g', id') b') :
    g'.Reaches env ok b id' b' := by
  replace h := runs_resolvePath h
  induction h with
  | stay => exact ⟨hg, .refl hg.recorded, hid⟩
  | last h => exact (resolveStep_placed hok hg hid hnew h).1
  | known hk _ ih => exact ih hg (hg.scope _ (Bindings.mem_scope_of_lookupLocal? hk)) hnew
  | step hk h₁ _ ih =>
    obtain ⟨hreaches, hscope⟩ := resolveStep_placed hok hg hid hk h₁
    exact hreaches.trans (ih hreaches.placed hreaches.target
      ((lookupLocal?_of_path ha hscope).trans hnew))

/-! ## Elements -/

/-- A graph of the root alone. -/
theorem JoinGraph.Placed.ofRoot {index : Option String} (hb : b.Recorded env)
    (hscope : b.resolver.scope = []) (hgains : b.Gains env id c b')
    (hscope' : b'.resolver.scope = (userAlias, id) :: b.resolver.scope)
    (hindex : ∀ column ∈ index, ∃ x ∈ c.columns, x.name = column) :
    JoinGraph.Placed env ok b' ⟨JoinNode.ofRoot id userAlias c index, []⟩ := by
  have hall {P : JoinNode → Prop} (h : P (.ofRoot id userAlias c index)) :
      ∀ n ∈ JoinGraph.nodes ⟨.ofRoot id userAlias c index, []⟩, P n :=
    List.forall_mem_singleton.2 h
  refine ⟨hgains.recorded, ⟨nofun, hall (iff_of_true rfl rfl), hall nofun, ?_⟩, fun e he => ?_,
    fun a ha hmem => ?_, hall hgains.known, hall hindex, hall nofun⟩
  · exact List.pairwise_singleton _ _
  · rw [hscope', hscope] at he
    rw [List.mem_singleton.1 he]
    exact List.mem_singleton_self _
  · obtain ⟨scope, hs, name, hs'⟩ := ha
    rw [hgains.outer_eq] at hs
    have hlt := hb.seen a ⟨scope, List.mem_cons_of_mem _ hs, name, hs'⟩
    rw [List.mem_singleton.1 hmem] at hlt
    exact Nat.lt_irrefl _ (hgains.id_eq ▸ hlt)

theorem resolveRoot_placed {root : Source} (hb : b.Recorded env)
    (hscope : b.resolver.scope = []) (h : (resolveRoot env root).Runs b g b') :
    g.Placed env ok b' ∧ b.Retains env b' := by
  obtain ⟨component, id, index, hc, hbind, rfl, -, hindex⟩ := runs_resolveRoot h
  have hnew : b.resolver.lookupLocal? root.effectiveAlias = none := by
    rw [Resolver.lookupLocal?, hscope]; rfl
  obtain ⟨hgains, hscope'⟩ := bindComponent_gains hb (Surroundings.describe_eq_ok hc) hnew hbind
  refine ⟨.ofRoot hb hscope hgains hscope' fun column hcolumn => ?_, hgains.toRetains⟩
  obtain ⟨c, hknown, hx⟩ := hindex column hcolumn
  cases hgains.known.symm.trans hknown
  exact hx

/-- What an alias of the graph stands for is no bridge. -/
theorem JoinGraph.Placed.mem_records_of_lookup? {name : String} (hg : g.Placed env ok b)
    (hl : b.resolver.lookup? name = some id) (hc : g.contains id = true) : id ∈ g.records :=
  (hg.sees_records (Bindings.sees_of_lookup? hl)).resolve_right fun houter =>
    hg.apart _ houter (JoinGraph.contains_iff.1 hc)

theorem JoinGraph.Placed.indexes (hg : g.Placed env ok b) (h : g.Indexes b id g') :
    g'.Placed env ok b := by
  cases h with
  | nothing => exact hg
  | column hc hx =>
    refine hg.update (fun _ => ⟨rfl, rfl, rfl, rfl⟩) (fun n hn hid => ?_) fun _ _ he => .inl he
    rintro _ ⟨⟩
    exact .inr (hg.component_eq hn (hid ▸ hc) ▸ ⟨_, hx, rfl⟩)

theorem resolveJoin_placed {declared : List String} {j : Joined} (hok : env.Spells ok)
    (hsub : subquery.Spells env ok) (hg : g.Placed env ok b) (hj : j.source.Named)
    (h : (resolveJoin env subquery param declared g j).Runs b g' b') :
    g'.Placed env ok b' ∧ b.Retains env b' := by
  obtain ⟨start, g₁, id, b₁, g₂, hl, hstart, hnew, hpath, hattaches, hindexes, -⟩ :=
    runs_resolveJoin h
  have hreaches := resolvePath_placed hok hg (hg.mem_records_of_lookup? hl hstart)
    hj.effectiveAlias hnew hpath
  cases hattaches with
  | nothing => exact ⟨hreaches.placed.indexes hindexes, hreaches.retains⟩
  | condition _ h =>
    obtain ⟨hsteady, he⟩ := resolveExpr_spelled hok hsub hreaches.placed.recorded
      hreaches.placed.sees (fun _ hid => by cases hid) h
    have hplaced := hreaches.placed.steady hsteady
    rw [← hsteady.outer_eq] at he
    refine ⟨JoinGraph.Placed.indexes ?_ hindexes, hreaches.retains.trans hsteady.toRetains⟩
    refine hplaced.update (fun _ => ⟨rfl, rfl, rfl, rfl⟩) (fun _ _ _ _ hx => .inl hx)
      fun n x hx => ?_
    rcases JoinNode.mem_exprs_attach hx with hx | rfl
    · exact .inl hx
    · exact .inr he

theorem resolveJoins_placed {declared : List String} {js : List Joined} (hok : env.Spells ok)
    (hsub : subquery.Spells env ok) (hg : g.Placed env ok b) (hjs : ∀ j ∈ js, j.source.Named)
    (h : Runs (js.foldlM (resolveJoin env subquery param declared) g) b g' b') :
    g'.Placed env ok b' ∧ b.Retains env b' := by
  refine runs_foldlM_keeps (I := fun g c => g.Placed env ok c ∧ b.Retains env c) ?_
    ⟨hg, .refl hg.recorded⟩ h
  rintro j hj g₁ b₁ g₂ b₂ ⟨hg₁, hretains⟩ h
  obtain ⟨hg₂, hretains'⟩ := resolveJoin_placed hok hsub hg₁ (hjs j hj) h
  exact ⟨hg₂, hretains.trans hretains'⟩

/-- A graph is placed when its joins have identifiers for aliases. -/
theorem resolveFrom_placed {clause : FromList} (hok : env.Spells ok)
    (hsub : subquery.Spells env ok) (hb : b.Recorded env) (hscope : b.resolver.scope = [])
    (hjoins : ∀ j ∈ clause.joins, j.source.Named)
    (h : (resolveFrom env subquery param clause).Runs b g b') :
    g.Placed env ok b' ∧ b.Retains env b' := by
  obtain ⟨g₁, b₁, h1, h2⟩ := runs_bind.1 h
  obtain ⟨hg₁, hretains⟩ := resolveRoot_placed hb hscope h1
  obtain ⟨hg, hretains'⟩ := resolveJoins_placed hok hsub hg₁ hjoins h2
  exact ⟨hg, hretains.trans hretains'⟩

end ObjectQuery
