import ObjectQuery.Proofs.Resolve.From
import ObjectQuery.Proofs.Scope.Expr

/-! # What resolved joins read

A join reads aliases of its graph and of the queries around it, and the records of its rows belong
to those of a node that it is joined on, or to those of the node that its bridge is joined on
(`JoinGraph.Leads`). All this is kept while the graph is built join by join (`JoinGraph.Over`).

* `expandRelation_over`: the joins of a relation;
* `resolveJoin_over`, `resolveFrom_over`: joins of a `FROM` clause. -/

namespace ObjectQuery

open Resolve

variable {env : Surroundings} {subquery : ResolveSubquery} {param lo : Nat} {b b' : Bindings}
  {g g' : JoinGraph} {id a : AliasId} {kind : JoinKind} {head userAlias : String}
  {scopes : List AliasScope} {outer visible fresh fresh' : Set AliasId}
  {listed : AliasId → Nat → Prop} {n : JoinNode} {ns : List JoinNode}

/-! ## Predicates of the schema -/

/-- Pieces that the schema asks for refer to no select expression and hold no subquery. -/
theorem Generated.piece {ps : List Piece} {x : Piece} (h : Generated env ps) (hx : x ∈ ps) :
    (∃ t, x = .text t) ∨ (∃ id name, x = .column id name) ∨ ∃ id d, x = .discriminator id d := by
  induction h with
  | nil => cases hx
  | text _ _ ih =>
    rcases List.mem_cons.1 hx with rfl | hx
    · exact .inl ⟨_, rfl⟩
    · exact ih hx
  | column _ _ ih =>
    rcases List.mem_cons.1 hx with rfl | hx
    · exact .inr (.inl ⟨_, _, rfl⟩)
    · exact ih hx
  | test _ _ _ ih =>
    rcases List.mem_cons.1 hx with rfl | hx
    · exact .inr (.inr ⟨_, _, rfl⟩)
    · exact ih hx
  | group _ _ ihp ihq =>
    simp only [List.cons_append, List.mem_cons, List.mem_append] at hx
    rcases hx with rfl | hx | rfl | hx
    · exact .inl ⟨_, rfl⟩
    · exact ihp hx
    · exact .inl ⟨_, rfl⟩
    · exact ihq hx

theorem Expr.Generated.over {e : Expr} (h : e.Generated env) (hreads : ∀ a ∈ e.reads, a ∈ visible) :
    e.Over visible listed fresh := by
  intro x hx
  have hmem {a : AliasId} (ha : a ∈ x.reads) : a ∈ visible := by
    apply hreads
    rw [Expr.reads_eq]
    exact Piece.mem_readsAll.2 ⟨x, hx, ha⟩
  obtain ⟨ps, hps, he⟩ := h
  rw [he] at hx
  rcases mem_canonicalPieces hx with hx | ⟨t, rfl⟩
  · rcases hps.piece hx with ⟨t, rfl⟩ | ⟨id, name, rfl⟩ | ⟨id, d, rfl⟩
    · trivial
    · exact hmem (AliasSet.mem_ofList.2 (List.mem_singleton_self id))
    · exact hmem (AliasSet.mem_ofList.2 (List.mem_singleton_self id))
  · trivial

theorem Expr.Relates.over {e : Expr} {left right : AliasId} (h : e.Relates env left right)
    (hl : left ∈ visible) (hr : right ∈ visible) : e.Over visible listed fresh :=
  h.generated.over fun a ha => (h.reads a ha).elim (· ▸ hl) (· ▸ hr)

/-! ## Graphs -/

/-- The node is joined on `s`, or on a node that is joined on `s`. -/
def JoinGraph.Leads (g : JoinGraph) (n : JoinNode) (s : AliasId) : Prop :=
  n.parent = some s ∨ ∃ m ∈ g.nodes, n.parent = some m.id ∧ m.parent = some s

/-- What is known of a node of a graph; `outer` are the aliases of the queries around it. -/
structure JoinNode.Fits (env : Surroundings) (g : JoinGraph) (outer fresh : Set AliasId)
    (n : JoinNode) : Prop where
  parent : ∀ p ∈ n.parent, p ∈ g.aliases
  exprs : ∀ e ∈ n.exprs, e.Over ({a | a ∈ g.aliases} ∪ outer) (fun _ _ => False) fresh
  linked : ∀ s ∈ n.source, g.Leads n s
  related : ∀ r ∈ n.relation, ∃ c, env.Describes c ∧ r ∈ c.relations

/-- The aliases between `lo` and `hi` that are none of the graph. -/
def JoinGraph.freshIn (g : JoinGraph) (lo hi : Nat) : Set AliasId :=
  {a | a ∈ Set.Ico lo hi ∧ a ∉ g.aliases}

/-- What holds of a graph while it is built: its occurrences are those from `lo` on that are no
occurrences of a subquery, and its joins read them and what the outer scopes bind. -/
structure JoinGraph.Over (env : Surroundings) (scopes : List AliasScope) (lo : Nat) (b : Bindings)
    (g : JoinGraph) : Prop where
  tidy : b.Tidy env
  outer_eq : b.resolver.outer = scopes
  scope : ∀ e ∈ b.resolver.scope, e.2 ∈ g.aliases
  size_le : lo ≤ b.size
  ids : ∀ a ∈ g.aliases, a ∈ Set.Ico lo b.size
  nodes : ∀ n ∈ g.nodes, n.Fits env g (AliasScope.bound scopes) (g.freshIn lo b.size)
  root : g.root.role = .root

theorem JoinNode.Fits.mono (h : n.Fits env g outer fresh) (ha : ∀ a ∈ g.aliases, a ∈ g'.aliases)
    (hleads : ∀ s, g.Leads n s → g'.Leads n s) (hfresh : fresh ⊆ fresh') :
    n.Fits env g' outer fresh' := by
  refine ⟨fun p hp => ha p (h.parent p hp), fun e he => ?_, fun s hs => hleads s (h.linked s hs),
    h.related⟩
  exact (h.exprs e he).mono (Set.union_subset_union_left _ ha) (fun _ _ h => h) hfresh

theorem JoinGraph.aliases_add : (g.add ns).aliases = g.aliases ++ ns.map (·.id) := by
  rw [aliases, nodes_add, List.map_append]
  rfl

namespace JoinGraph.Over

/-- Aliases in scope stand for occurrences of the graph, or of the queries around it. -/
theorem sees (h : g.Over env scopes lo b) :
    b.Sees ⊆ {a | a ∈ g.aliases} ∪ AliasScope.bound scopes := by
  rintro a ⟨scope, hscope, name, hmem⟩
  rcases List.mem_cons.1 hscope with rfl | hscope
  · exact .inl (h.scope _ hmem)
  · exact .inr ⟨scope, h.outer_eq ▸ hscope, name, hmem⟩

theorem keeps (h : g.Over env scopes lo b) (hk : b.Keeps env b') : g.Over env scopes lo b' := by
  refine ⟨hk.tidy, hk.outer_eq.trans h.outer_eq, ?_, Nat.le_trans h.size_le hk.size_le,
    fun a ha => Set.Ico_subset_Ico_right hk.size_le (h.ids a ha), fun n hn => ?_, h.root⟩
  · rw [hk.scope_eq]
    exact h.scope
  · refine (h.nodes n hn).mono (fun _ ha => ha) (fun _ hs => hs) fun a ha => ?_
    exact ⟨Set.Ico_subset_Ico_right hk.size_le ha.1, ha.2⟩

/-- Occurrences that are made later are none of the graph. -/
theorem later {n : Nat} (h : g.Over env scopes lo b) : Set.Ico b.size n ⊆ g.freshIn lo n := by
  intro a ha
  refine ⟨Set.Ico_subset_Ico_left h.size_le ha, fun hmem => ?_⟩
  exact Nat.not_lt.2 ha.1 (h.ids a hmem).2

/-- New nodes, each of which is a new occurrence or one that the graph has. -/
theorem add (h : g.Over env scopes lo b) (htidy : b'.Tidy env)
    (houter : b'.resolver.outer = b.resolver.outer) (hsize : b.size ≤ b'.size)
    (hscope : ∀ e ∈ b'.resolver.scope, e.2 ∈ (g.add ns).aliases)
    (hids : ∀ n ∈ ns, n.id ∈ g.aliases ∨ n.id ∈ Set.Ico b.size b'.size)
    (hns : ∀ n ∈ ns, n.Fits env (g.add ns) (AliasScope.bound scopes)
      ((g.add ns).freshIn lo b'.size)) : (g.add ns).Over env scopes lo b' := by
  have hnew : ∀ a ∈ ns.map (·.id), a ∈ g.aliases ∨ a ∈ Set.Ico b.size b'.size :=
    List.forall_mem_map.2 hids
  refine ⟨htidy, houter.trans h.outer_eq, hscope, Nat.le_trans h.size_le hsize, fun a ha => ?_,
    fun n hn => ?_, h.root⟩
  · rw [aliases_add] at ha
    rcases List.mem_append.1 ha with ha | ha
    · exact Set.Ico_subset_Ico_right hsize (h.ids a ha)
    · rcases hnew a ha with ha | ha
      · exact Set.Ico_subset_Ico_right hsize (h.ids a ha)
      · exact Set.Ico_subset_Ico_left h.size_le ha
  · rw [nodes_add] at hn
    rcases List.mem_append.1 hn with hn | hn
    · refine (h.nodes n hn).mono (fun a ha => ?_) (fun s hs => ?_) fun a ha => ⟨?_, fun hmem => ?_⟩
      · rw [aliases_add]
        exact List.mem_append_left _ ha
      · exact hs.imp_right fun ⟨m, hm, hs⟩ => ⟨m, List.mem_append_left _ hm, hs⟩
      · exact Set.Ico_subset_Ico_right hsize ha.1
      · rw [aliases_add] at hmem
        rcases List.mem_append.1 hmem with hmem | hmem
        · exact ha.2 hmem
        · rcases hnew a hmem with hmem | hmem
          · exact ha.2 hmem
          · exact absurd ha.1.2 (Nat.not_lt.2 hmem.1)
    · exact hns n hn

end JoinGraph.Over

/-! ## Changed nodes -/

section
variable {f : JoinNode → JoinNode}

theorem JoinGraph.mem_updateFirst (hn : n ∈ update.updateFirst id f ns) :
    n ∈ ns ∨ ∃ m ∈ ns, m.id = id ∧ n = f m := by
  induction ns with
  | nil => cases hn
  | cons m ns ih =>
    rw [update.updateFirst] at hn
    split at hn
    · rename_i hid
      rcases List.mem_cons.1 hn with rfl | hn
      · exact .inr ⟨m, List.mem_cons_self, hid, rfl⟩
      · exact .inl (List.mem_cons_of_mem _ hn)
    · rcases List.mem_cons.1 hn with rfl | hn
      · exact .inl List.mem_cons_self
      · rcases ih hn with hn | ⟨k, hk, he⟩
        · exact .inl (List.mem_cons_of_mem _ hn)
        · exact .inr ⟨k, List.mem_cons_of_mem _ hk, he⟩

/-- A node of a graph that was changed is one of the graph before, or the one of the given alias
changed. -/
theorem JoinGraph.mem_nodes_update (hn : n ∈ (g.update id f).nodes) :
    n ∈ g.nodes ∨ ∃ m ∈ g.nodes, m.id = id ∧ n = f m := by
  rw [update] at hn
  split at hn
  · rename_i hid
    rcases List.mem_cons.1 hn with rfl | hn
    · exact .inr ⟨g.root, List.mem_cons_self, hid, rfl⟩
    · exact .inl (List.mem_cons_of_mem _ hn)
  · rcases List.mem_cons.1 hn with rfl | hn
    · exact .inl List.mem_cons_self
    · rcases mem_updateFirst hn with hn | ⟨m, hm, he⟩
      · exact .inl (List.mem_cons_of_mem _ hn)
      · exact .inr ⟨m, List.mem_cons_of_mem _ hm, he⟩

theorem map_updateFirst {α : Type} (p : JoinNode → α) (hp : ∀ n, p (f n) = p n) :
    (JoinGraph.update.updateFirst id f ns).map p = ns.map p := by
  induction ns with
  | nil => rfl
  | cons m ns ih =>
    rw [JoinGraph.update.updateFirst]
    split
    · rw [List.map_cons, List.map_cons, hp]
    · rw [List.map_cons, List.map_cons, ih]

/-- What a change leaves alone at every node it leaves alone at all nodes. -/
theorem JoinGraph.map_nodes_update {α : Type} (p : JoinNode → α) (hp : ∀ n, p (f n) = p n) :
    (g.update id f).nodes.map p = g.nodes.map p := by
  rw [update]
  split
  · exact congrArg (· :: g.joins.map p) (hp g.root)
  · exact congrArg (p g.root :: ·) (map_updateFirst p hp)

theorem JoinGraph.leads_update (hid : ∀ n, (f n).id = n.id) (hparent : ∀ n, (f n).parent = n.parent)
    {m : JoinNode} {s : AliasId} (h : g.Leads m s) : (g.update id f).Leads m s := by
  have hpairs : (g.update id f).nodes.map (fun n => (n.id, n.parent)) =
      g.nodes.map fun n => (n.id, n.parent) :=
    map_nodes_update _ fun n => by rw [hid n, hparent n]
  rcases h with hs | ⟨k, hk, hp, hs⟩
  · exact .inl hs
  · have hmem : (k.id, k.parent) ∈ (g.update id f).nodes.map fun n => (n.id, n.parent) :=
      hpairs ▸ List.mem_map_of_mem hk
    obtain ⟨j, hj, he⟩ := List.mem_map.1 hmem
    obtain ⟨hid, hparent⟩ := Prod.ext_iff.1 he
    exact .inr ⟨j, hj, hp.trans (congrArg some hid.symm), hparent.trans hs⟩

/-- A change that keeps what a node is joined on, and adds a sound condition at most. -/
theorem JoinGraph.Over.update (h : g.Over env scopes lo b)
    (huse : ∀ n, (f n).id = n.id ∧ (f n).parent = n.parent ∧ (f n).source = n.source ∧
      (f n).relation = n.relation ∧ (f n).role = n.role)
    (hexprs : ∀ n, ∀ e ∈ (f n).exprs, e ∈ n.exprs ∨
      e.Over ({a | a ∈ g.aliases} ∪ AliasScope.bound scopes) (fun _ _ => False)
        (g.freshIn lo b.size)) :
    (g.update id f).Over env scopes lo b := by
  have haliases : (g.update id f).aliases = g.aliases := map_nodes_update _ fun n => (huse n).1
  have hfresh : (g.update id f).freshIn lo b.size = g.freshIn lo b.size := by
    rw [freshIn, haliases]; rfl
  have hfits (m : JoinNode) (hm : m ∈ g.nodes) : m.Fits env (g.update id f)
      (AliasScope.bound scopes) (g.freshIn lo b.size) :=
    (h.nodes m hm).mono (fun a ha => haliases ▸ ha)
      (fun _ => leads_update (fun n => (huse n).1) fun n => (huse n).2.1) le_rfl
  have hchanged (m : JoinNode) (hm : m ∈ g.nodes) : (f m).Fits env (g.update id f)
      (AliasScope.bound scopes) (g.freshIn lo b.size) := by
    obtain ⟨-, hparent, hsource, hrelation, -⟩ := huse m
    have hm := hfits m hm
    refine ⟨hparent ▸ hm.parent, fun e he => ?_, hsource ▸ fun s hs => ?_, hrelation ▸ hm.related⟩
    · rcases hexprs m e he with he | he
      · exact hm.exprs e he
      · rw [haliases]
        exact he
    · simpa only [Leads, hparent] using hm.linked s hs
  refine ⟨h.tidy, h.outer_eq, haliases ▸ h.scope, h.size_le, haliases ▸ h.ids, fun n hn => ?_, ?_⟩
  · rw [hfresh]
    rcases mem_nodes_update hn with hn | ⟨m, hm, -, rfl⟩
    · exact hfits n hn
    · exact hchanged m hm
  · rw [JoinGraph.update]
    split
    · exact (huse g.root).2.2.2.2.trans h.root
    · exact h.root

end

/-! ## Relations -/

theorem JoinNode.JoinedOn.fits {on : List AliasId} (h : n.JoinedOn env on)
    (hid : n.id ∈ g.aliases) (hon : ∀ a ∈ on, a ∈ g.aliases) (hlinked : ∀ s ∈ n.source, g.Leads n s)
    (hrelated : ∀ r ∈ n.relation, ∃ c, env.Describes c ∧ r ∈ c.relations) :
    n.Fits env g outer fresh := by
  have hover {e : Expr} (he : e.ReadsOnly env on n.id) :
      e.Over ({a | a ∈ g.aliases} ∪ outer) (fun _ _ => False) fresh := by
    refine he.1.over fun a ha => .inl ?_
    rcases he.2 a ha with rfl | ha
    · exact hid
    · exact hon a ha
  refine ⟨fun p hp => hon p (h.parent p hp), fun e he => ?_, hlinked, hrelated⟩
  simp only [exprs, h.condition, Option.toList_none, List.map_nil, List.append_nil, List.mem_append,
    Option.mem_toList] at he
  exact he.elim (fun he => hover (h.structural e he)) fun he => hover (h.extra e he)

/-- The occurrence that a table is joined as is new, or one of the graph. -/
theorem JoinGraph.Over.binds (hg : g.Over env scopes lo b) (hbinds : b.Binds env id b') :
    id ∈ g.aliases ∨ id ∈ Set.Ico b.size b'.size :=
  hbinds.id.imp_left fun ⟨_, hmem⟩ => hg.scope _ hmem

/-- The target of a relation without a bridge. -/
theorem JoinGraph.Over.addDirect {source : AliasId} (hg : g.Over env scopes lo b)
    (hbinds : b.Binds env id b') (hs : source ∈ g.aliases) (hid : n.id = id)
    (hn : n.JoinedOn env [source]) (hparent : n.parent = n.source)
    (hrelated : ∀ r ∈ n.relation, ∃ c, env.Describes c ∧ r ∈ c.relations) :
    (g.add [n]).Over env scopes lo b' := by
  subst hid
  have hold (a) (ha : a ∈ g.aliases) : a ∈ (g.add [n]).aliases := by
    rw [aliases_add]
    exact List.mem_append_left _ ha
  have hnew : n.id ∈ (g.add [n]).aliases := by
    rw [aliases_add]
    exact List.mem_append_right _ (List.mem_singleton_self _)
  refine hg.add hbinds.tidy hbinds.outer_eq hbinds.size_le (fun e he => ?_)
    (List.forall_mem_singleton.2 (hg.binds hbinds)) (List.forall_mem_singleton.2 ?_)
  · rcases hbinds.scope e he with he | he
    · exact hold _ (hg.scope e he)
    · exact he ▸ hnew
  · refine hn.fits hnew (fun a ha => ?_) (fun s hs => ?_) hrelated
    · exact List.mem_singleton.1 ha ▸ hold _ hs
    · exact .inl (hparent.trans hs)

/-- The bridge of a relation and the target behind it. -/
theorem JoinGraph.Over.addBridge {source : AliasId} {b₁ : Bindings} {k : JoinNode}
    (hg : g.Over env scopes lo b) (hbinds : b.Binds env n.id b₁) (hbinds' : b₁.Binds env k.id b')
    (hs : source ∈ g.aliases) (hk : k.JoinedOn env [source]) (hkp : k.parent = some source)
    (hks : k.source = some source) (hn : n.JoinedOn env [k.id, source])
    (hnp : n.parent = some k.id) (hns : n.source = some source)
    (hkr : ∀ r ∈ k.relation, ∃ c, env.Describes c ∧ r ∈ c.relations)
    (hnr : ∀ r ∈ n.relation, ∃ c, env.Describes c ∧ r ∈ c.relations) :
    (g.add [k, n]).Over env scopes lo b' := by
  have hold (a) (ha : a ∈ g.aliases) : a ∈ (g.add [k, n]).aliases := by
    rw [aliases_add]
    exact List.mem_append_left _ ha
  have hknew : k.id ∈ (g.add [k, n]).aliases := by simp [aliases_add]
  have hnnew : n.id ∈ (g.add [k, n]).aliases := by simp [aliases_add]
  have hn' : n.id ∈ g.aliases ∨ n.id ∈ Set.Ico b.size b'.size :=
    (hg.binds hbinds).imp_right fun h => Set.Ico_subset_Ico_right hbinds'.size_le h
  have hk' : k.id ∈ g.aliases ∨ k.id ∈ Set.Ico b.size b'.size := by
    rcases hbinds'.id with ⟨name, hmem⟩ | hmem
    · rcases hbinds.scope _ hmem with hmem | he
      · exact .inl (hg.scope _ hmem)
      · exact (show k.id = n.id from he) ▸ hn'
    · exact .inr (Set.Ico_subset_Ico_left hbinds.size_le hmem)
  refine hg.add hbinds'.tidy (hbinds'.outer_eq.trans hbinds.outer_eq)
    (Nat.le_trans hbinds.size_le hbinds'.size_le) (fun e he => ?_)
    (List.forall_mem_cons.2 ⟨hk', List.forall_mem_singleton.2 hn'⟩)
    (List.forall_mem_cons.2 ⟨?_, List.forall_mem_singleton.2 ?_⟩)
  · rcases hbinds'.scope e he with he | he
    · rcases hbinds.scope e he with he | he
      · exact hold _ (hg.scope e he)
      · exact he ▸ hnnew
    · exact he ▸ hknew
  · refine hk.fits hknew (fun a ha => ?_) (fun s h => ?_) hkr
    · exact List.mem_singleton.1 ha ▸ hold _ hs
    · exact .inl (hkp.trans (hks.symm.trans h))
  · refine hn.fits hnnew (fun a ha => ?_) (fun s h => ?_) hnr
    · rcases List.mem_cons.1 ha with rfl | ha
      · exact hknew
      · exact List.mem_singleton.1 ha ▸ hold _ hs
    · refine .inr ⟨k, ?_, hnp, hkp.trans (hns.symm.trans h)⟩
      simp [nodes_add]

theorem expandRelation_over {source : AliasId} {c : Component} {r : Relation}
    (hg : g.Over env scopes lo b) (hs : source ∈ g.aliases) (hc : env.Describes c)
    (hr : r ∈ c.relations) (hcols : env.HasRelation r)
    (h : (expandRelation env g source c r kind userAlias).Runs b (g', id) b') :
    g'.Over env scopes lo b' ∧ id ∈ g'.aliases := by
  have hrelated : ∀ r' ∈ some r, ∃ c, env.Describes c ∧ r' ∈ c.relations := by
    rintro _ ⟨⟩
    exact ⟨c, hc, hr⟩
  cases runs_expandRelation h with
  | direct hx hbind =>
    have hx := Expansion.ofRelation_sound hc hx
    have hbinds := bindComponent_binds hg.tidy hx hbind
    refine ⟨hg.addDirect hbinds hs rfl (.ofDirect hcols hx rfl rfl rfl rfl) rfl hrelated, ?_⟩
    simp [JoinGraph.aliases_add, targetNode]
  | bridged hx hbind hassign =>
    obtain ⟨ht, hbr, hsk, htk⟩ := Expansion.ofRelation_sound hc hx
    have hbinds := bindComponent_binds hg.tidy ht hbind
    have hbinds' := assignComponent_binds hbinds.tidy hbr hassign
    refine ⟨hg.addBridge hbinds hbinds' hs (.ofBridge hcols hsk hbr rfl rfl rfl rfl) rfl rfl
      (.ofTarget hcols htk ht rfl rfl rfl rfl) rfl rfl hrelated hrelated, ?_⟩
    simp [JoinGraph.aliases_add, targetNode]

/-! ## Paths -/

theorem resolveStep_over {relation : String} {id' : AliasId} (hg : g.Over env scopes lo b)
    (hid : id ∈ g.aliases)
    (h : (resolveStep env g kind head id relation userAlias).Runs b (g', id') b') :
    g'.Over env scopes lo b' ∧ id' ∈ g'.aliases := by
  obtain ⟨c, hc, r, hr, h⟩ := runs_resolveStep h
  have hc := hg.tidy.describes hc
  exact expandRelation_over hg hid hc (List.mem_of_find?_eq_some hr) (hc.hasRelation hr) h

theorem resolvePath_over {walked : String} {relations : List String} {id' : AliasId}
    (hg : g.Over env scopes lo b) (hid : id ∈ g.aliases)
    (h : (resolvePath env kind head userAlias g id walked relations).Runs b (g', id') b') :
    g'.Over env scopes lo b' ∧ id' ∈ g'.aliases := by
  replace h := runs_resolvePath h
  induction h with
  | stay => exact ⟨hg, hid⟩
  | last h => exact resolveStep_over hg hid h
  | known hk _ ih => exact ih hg (hg.scope _ (Bindings.mem_scope_of_lookupLocal? hk))
  | step _ h₁ _ ih =>
    obtain ⟨hg₁, hid₁⟩ := resolveStep_over hg hid h₁
    exact ih hg₁ hid₁

/-! ## Elements -/

theorem resolveRoot_over {root : Source} (hb : b.Tidy env) (hscope : b.resolver.scope = [])
    (h : (resolveRoot env root).Runs b g b') : g.Over env b.resolver.outer b.size b' := by
  obtain ⟨component, id, index, hc, hbind, rfl, -⟩ := runs_resolveRoot h
  have hbinds := bindComponent_binds hb (Surroundings.describe_eq_ok hc) hbind
  have hid : id ∈ Set.Ico b.size b'.size := by
    rcases hbinds.id with ⟨name, hmem⟩ | hid
    · rw [hscope] at hmem
      cases hmem
    · exact hid
  refine ⟨hbinds.tidy, hbinds.outer_eq, fun e he => ?_, hbinds.size_le, ?_, ?_, rfl⟩
  · rcases hbinds.scope e he with he | rfl
    · rw [hscope] at he
      cases he
    · exact List.mem_singleton_self _
  · exact List.forall_mem_singleton.2 hid
  · exact List.forall_mem_singleton.2 ⟨nofun, nofun, nofun, nofun⟩

theorem JoinNode.mem_exprs_attach {c : JoinCondition} {e : Expr}
    (he : e ∈ ({ n with condition := some c } : JoinNode).exprs) : e ∈ n.exprs ∨ e = c.expr := by
  simp only [exprs, List.mem_append, Option.toList_some, List.map_cons, List.map_nil,
    List.mem_singleton] at he ⊢
  tauto

theorem JoinGraph.Over.attach {c : JoinCondition} (hg : g.Over env scopes lo b)
    (hc : c.expr.Over ({a | a ∈ g.aliases} ∪ AliasScope.bound scopes) (fun _ _ => False)
      (g.freshIn lo b.size)) : (g.attach id c).Over env scopes lo b := by
  refine hg.update (fun n => ⟨rfl, rfl, rfl, rfl, rfl⟩) fun n e he => ?_
  rcases JoinNode.mem_exprs_attach he with he | rfl
  · exact .inl he
  · exact .inr hc

/-- Keying the records of a node changes nothing that is read. -/
theorem JoinGraph.Over.indexes (hg : g.Over env scopes lo b) (h : g.Indexes b id g') :
    g'.Over env scopes lo b := by
  cases h with
  | nothing => exact hg
  | column => exact hg.update (fun _ => ⟨rfl, rfl, rfl, rfl, rfl⟩) fun _ _ he => .inl he

theorem resolveJoin_over {declared : List String} {j : Joined} (hsub : subquery.Nests env)
    (hg : g.Over env scopes lo b)
    (h : (resolveJoin env subquery param declared g j).Runs b g' b') :
    g'.Over env scopes lo b' := by
  obtain ⟨start, g₁, id, b₁, g₂, -, hstart, -, hpath, hattaches, hindexes, -⟩ := runs_resolveJoin h
  obtain ⟨hg₁, -⟩ := resolvePath_over hg (JoinGraph.contains_iff.1 hstart) hpath
  cases hattaches with
  | nothing => exact hg₁.indexes hindexes
  | condition _ h =>
    obtain ⟨hkeeps, he⟩ := resolveExpr_over hsub hg₁.tidy (.inr hg₁.sees) .empty h
    refine ((hg₁.keeps hkeeps).attach ?_).indexes hindexes
    exact he.mono le_rfl (fun _ _ h => h) hg₁.later

theorem resolveJoins_over {declared : List String} {js : List Joined} (hsub : subquery.Nests env)
    (hg : g.Over env scopes lo b)
    (h : Runs (js.foldlM (resolveJoin env subquery param declared) g) b g' b') :
    g'.Over env scopes lo b' :=
  runs_foldlM_keeps (I := fun g b => g.Over env scopes lo b)
    (fun _ _ _ _ _ _ hg h => resolveJoin_over hsub hg h) hg h

theorem resolveFrom_over {clause : FromList} (hsub : subquery.Nests env) (hb : b.Tidy env)
    (hscope : b.resolver.scope = []) (h : (resolveFrom env subquery param clause).Runs b g b') :
    g.Over env b.resolver.outer b.size b' := by
  obtain ⟨g₁, b₁, h1, h2⟩ := runs_bind.1 h
  exact resolveJoins_over hsub (resolveRoot_over hb hscope h1) h2

end ObjectQuery
