import ObjectQuery.Proofs.Resolve.From
import ObjectQuery.Proofs.Resolve.Predicates

/-! # Joins hop along relations

A graph is its root and then one hop after another: the target of a relation, or a bridge and the
target behind it (`Hops`). Conditions and keys are added to nodes afterwards, which leaves the hops
as they are.

* `Hops.mem`, `Hops.bridge_before`: the nodes of hops;
* `expandRelation_hops`, `resolveFrom_hops`: what a resolution adds are hops. -/

namespace ObjectQuery

open Resolve

variable {env : Surroundings} {subquery : ResolveSubquery} {param : Nat} {b b' : Bindings}
  {g g' : JoinGraph} {id id' source : AliasId} {kind : JoinKind} {head userAlias relation : String}
  {declared : List String} {c : Component} {r : Relation} {j : Joined} {k n : JoinNode}
  {ms ns pre post : List JoinNode} {f : JoinNode → JoinNode}

/-! ## Hops -/

/-- What the schema demands of the node is a conjunction. -/
structure JoinNode.Conjoined (n : JoinNode) : Prop where
  structural : ∀ e ∈ n.structural, e.Conjoined
  extra : ∀ e ∈ n.extra, e.Conjoined

/-- The node is the target of a relation, and its rows are tested to be of its component. -/
structure JoinNode.Targets (r : Relation) (n : JoinNode) : Prop where
  role : n.role = .target
  relation : n.relation = some r
  tested : ∀ d ∈ n.component.inheritance, Expr.discriminator n.id d ∈ n.extra
  conjoined : n.Conjoined

/-- The node is the bridge that leads to another one. -/
structure JoinNode.Bridges (k n : JoinNode) : Prop where
  role : k.role = .bridge
  relation : k.relation = n.relation
  parent : n.parent = some k.id
  conjoined : k.Conjoined

/-- The nodes are those of relations, one after another: a target, or a bridge and right after it
its target. -/
inductive Hops : List JoinNode → Prop
  | nil : Hops []
  | direct {n : JoinNode} {ns : List JoinNode} {r : Relation} (hn : n.Targets r)
    (hr : r.kind ≠ .manyToMany) (h : Hops ns) : Hops (n :: ns)
  | bridged {k n : JoinNode} {ns : List JoinNode} {r : Relation} (hk : k.Bridges n)
    (hn : n.Targets r) (hr : r.kind = .manyToMany) (h : Hops ns) : Hops (k :: n :: ns)

theorem Hops.append (h : Hops ms) (h' : Hops ns) : Hops (ms ++ ns) := by
  induction h with
  | nil => exact h'
  | direct hn hr _ ih => exact .direct hn hr ih
  | bridged hk hn hr _ ih => exact .bridged hk hn hr ih

/-- A node of hops is a target, or it is the bridge of the next node. -/
theorem Hops.mem (h : Hops ns) (hn : n ∈ ns) :
    (∃ r, n.Targets r) ∨ ∃ m ∈ ns, n.Bridges m ∧ ∃ r, m.Targets r := by
  induction h with
  | nil => cases hn
  | direct hm hr _ ih =>
    rcases List.mem_cons.1 hn with rfl | hn
    · exact .inl ⟨_, hm⟩
    · refine (ih hn).imp_right fun ⟨m, hmem, h⟩ => ⟨m, List.mem_cons_of_mem _ hmem, h⟩
  | @bridged k m ns r hk hm hr _ ih =>
    rcases List.mem_cons.1 hn with rfl | hn
    · exact .inr ⟨m, by simp, hk, r, hm⟩
    · rcases List.mem_cons.1 hn with rfl | hn
      · exact .inl ⟨_, hm⟩
      · refine (ih hn).imp_right fun ⟨i, hmem, h⟩ => ⟨i, ?_, h⟩
        exact List.mem_cons_of_mem _ (List.mem_cons_of_mem _ hmem)

theorem Hops.conjoined (h : Hops ns) (hn : n ∈ ns) : n.Conjoined := by
  rcases h.mem hn with ⟨r, hr⟩ | ⟨m, -, hb, -⟩
  · exact hr.conjoined
  · exact hb.conjoined

theorem Hops.role_ne_root (h : Hops ns) (hn : n ∈ ns) : n.role ≠ .root := by
  rcases h.mem hn with ⟨r, hr⟩ | ⟨m, -, hb, -⟩
  · rw [hr.role]
    decide
  · rw [hb.role]
    decide

/-- The target of a many-to-many relation stands right after its bridge. -/
theorem Hops.bridge_before (h : Hops ns) (hsplit : ns = pre ++ n :: post) (hn : n.role = .target)
    (hr : n.relation = some r) (hkind : r.kind = .manyToMany) :
    ∃ before k, pre = before ++ [k] ∧ k.Bridges n := by
  induction h generalizing pre with
  | nil => simp at hsplit
  | @direct m ns r' hm hr' _ ih =>
    cases pre with
    | nil =>
      obtain ⟨rfl, -⟩ := List.cons_eq_cons.1 hsplit
      rw [hm.relation, Option.some_inj] at hr
      exact absurd (hr ▸ hkind) hr'
    | cons i pre =>
      obtain ⟨-, htail⟩ := List.cons_eq_cons.1 hsplit
      obtain ⟨before, k, rfl, hk⟩ := ih htail
      exact ⟨i :: before, k, rfl, hk⟩
  | @bridged k m ns r' hk hm _ _ ih =>
    match pre with
    | [] =>
      obtain ⟨he, -⟩ := List.cons_eq_cons.1 hsplit
      have hrole := hk.role.symm.trans (he ▸ hn)
      cases hrole
    | [i] =>
      obtain ⟨he, htail⟩ := List.cons_eq_cons.1 hsplit
      obtain ⟨rfl, -⟩ := List.cons_eq_cons.1 htail
      exact ⟨[], i, rfl, he ▸ hk⟩
    | i :: i' :: pre =>
      obtain ⟨-, htail⟩ := List.cons_eq_cons.1 hsplit
      obtain ⟨-, htail⟩ := List.cons_eq_cons.1 htail
      obtain ⟨before, l, rfl, hl⟩ := ih htail
      exact ⟨i :: i' :: before, l, rfl, hl⟩

/-! ## Nodes that are changed -/

/-- The change leaves a node where it stands in its hop. -/
structure KeepsHops (f : JoinNode → JoinNode) : Prop where
  id (n : JoinNode) : (f n).id = n.id
  role (n : JoinNode) : (f n).role = n.role
  relation (n : JoinNode) : (f n).relation = n.relation
  parent (n : JoinNode) : (f n).parent = n.parent
  component (n : JoinNode) : (f n).component = n.component
  structural (n : JoinNode) : (f n).structural = n.structural
  extra (n : JoinNode) : (f n).extra = n.extra

theorem JoinNode.Conjoined.change (h : n.Conjoined) (hf : KeepsHops f) : (f n).Conjoined :=
  ⟨hf.structural n ▸ h.structural, hf.extra n ▸ h.extra⟩

theorem JoinNode.Targets.change (h : n.Targets r) (hf : KeepsHops f) : (f n).Targets r := by
  refine ⟨(hf.role n).trans h.role, (hf.relation n).trans h.relation, fun d hd => ?_,
    h.conjoined.change hf⟩
  rw [hf.component] at hd
  rw [hf.id, hf.extra]
  exact h.tested d hd

theorem JoinNode.Bridges.change_left (h : k.Bridges n) (hf : KeepsHops f) : (f k).Bridges n :=
  ⟨(hf.role k).trans h.role, (hf.relation k).trans h.relation, (hf.id k).symm ▸ h.parent,
    h.conjoined.change hf⟩

theorem JoinNode.Bridges.change_right (h : k.Bridges n) (hf : KeepsHops f) : k.Bridges (f n) :=
  ⟨h.role, h.relation.trans (hf.relation n).symm, (hf.parent n).trans h.parent, h.conjoined⟩

theorem Hops.updateFirst (h : Hops ns) (hf : KeepsHops f) :
    Hops (JoinGraph.update.updateFirst id f ns) := by
  induction h with
  | nil => exact .nil
  | direct hn hr h ih =>
    rw [JoinGraph.update.updateFirst]
    split
    · exact .direct (hn.change hf) hr h
    · exact .direct hn hr ih
  | bridged hk hn hr h ih =>
    rw [JoinGraph.update.updateFirst]
    split
    · exact .bridged (hk.change_left hf) hn hr h
    · rw [JoinGraph.update.updateFirst]
      split
      · exact .bridged (hk.change_right hf) (hn.change hf) hr h
      · exact .bridged hk hn hr ih

/-- The graph is a root with hops. -/
structure JoinGraph.Hopping (g : JoinGraph) : Prop where
  root : g.root.role = .root
  joins : Hops g.joins

theorem JoinGraph.Hopping.add (h : g.Hopping) (hns : Hops ns) : (g.add ns).Hopping :=
  ⟨h.root, h.joins.append hns⟩

theorem JoinGraph.Hopping.update (h : g.Hopping) (hf : KeepsHops f) : (g.update id f).Hopping := by
  rw [JoinGraph.update]
  split
  · exact ⟨(hf.role g.root).trans h.root, h.joins⟩
  · exact ⟨h.root, h.joins.updateFirst hf⟩

/-! ## Resolutions -/

theorem mem_extraPredicates {self : Bool} {d : Discriminator} (hd : d ∈ c.inheritance) :
    Expr.discriminator id d ∈ extraPredicates id source self c :=
  List.mem_append_right _ (List.mem_map_of_mem (Option.mem_toList.2 hd))

theorem JoinNode.Conjoined.ofPredicates {self : Bool} {e : Expr} (he : e.Conjoined)
    (hs : n.structural = some e) (hextra : n.extra = extraPredicates n.id source self n.component) :
    n.Conjoined := by
  refine ⟨fun x hx => ?_, fun x hx => ?_⟩
  · rw [hs] at hx
    exact Option.some_inj.1 hx ▸ he
  · rw [hextra] at hx
    exact extraPredicates_conjoined hx

theorem expandRelation_hops
    (h : (expandRelation env g source c r kind userAlias).Runs b (g', id) b') :
    ∃ ns, g' = g.add ns ∧ Hops ns := by
  cases runs_expandRelation h with
  | direct hx =>
    obtain ⟨hkind, -⟩ := Expansion.leadsTo hx
    refine ⟨_, rfl, .direct ⟨rfl, rfl, fun d hd => ?_, ?_⟩ hkind .nil⟩
    · exact mem_extraPredicates hd
    · exact .ofPredicates (structuralPredicate_conjoined _) rfl rfl
  | bridged hx =>
    obtain ⟨-⟩ | ⟨hkind⟩ := Expansion.leadsTo hx
    refine ⟨_, rfl, .bridged ⟨rfl, rfl, rfl, ?_⟩ ⟨rfl, rfl, fun d hd => ?_, ?_⟩ hkind .nil⟩
    · refine ⟨fun e he => ?_, nofun⟩
      cases he
      exact bridgePredicate_conjoined _
    · exact mem_extraPredicates hd
    · exact .ofPredicates (targetPredicate_conjoined _) rfl rfl

theorem resolveStep_hops (hg : g.Hopping)
    (h : (resolveStep env g kind head id relation userAlias).Runs b (g', id') b') :
    g'.Hopping := by
  obtain ⟨c, -, r, -, h⟩ := runs_resolveStep h
  obtain ⟨ns, rfl, hns⟩ := expandRelation_hops h
  exact hg.add hns

theorem resolvePath_hops {walked : String} {relations : List String} (hg : g.Hopping)
    (h : (resolvePath env kind head userAlias g id walked relations).Runs b (g', id') b') :
    g'.Hopping := by
  replace h := runs_resolvePath h
  induction h with
  | stay => exact hg
  | last h => exact resolveStep_hops hg h
  | known _ _ ih => exact ih hg
  | step _ h₁ _ ih => exact ih (resolveStep_hops hg h₁)

theorem resolveJoin_hops (hg : g.Hopping)
    (h : (resolveJoin env subquery param declared g j).Runs b g' b') : g'.Hopping := by
  obtain ⟨start, g₁, id, b₁, g₂, -, -, -, hpath, hattaches, hindexes, -⟩ := runs_resolveJoin h
  have hg₁ := resolvePath_hops hg hpath
  have hg₂ : g₂.Hopping := by
    cases hattaches with
    | nothing => exact hg₁
    | condition => exact hg₁.update ⟨fun _ => rfl, fun _ => rfl, fun _ => rfl, fun _ => rfl,
        fun _ => rfl, fun _ => rfl, fun _ => rfl⟩
  cases hindexes with
  | nothing => exact hg₂
  | column => exact hg₂.update ⟨fun _ => rfl, fun _ => rfl, fun _ => rfl, fun _ => rfl,
      fun _ => rfl, fun _ => rfl, fun _ => rfl⟩

theorem resolveJoins_hops {js : List Joined} (hg : g.Hopping)
    (h : Runs (js.foldlM (resolveJoin env subquery param declared) g) b g' b') : g'.Hopping :=
  runs_foldlM_keeps (I := fun g _ => g.Hopping) (fun _ _ _ _ _ _ hg h => resolveJoin_hops hg h) hg h

/-- The joins of a `FROM` clause are hops from its root. -/
theorem resolveFrom_hops {clause : FromList}
    (h : (resolveFrom env subquery param clause).Runs b g b') : g.Hopping := by
  obtain ⟨g₁, b₁, h1, h2⟩ := runs_bind.1 h
  obtain ⟨component, id, index, -, -, rfl, -, -⟩ := runs_resolveRoot h1
  exact resolveJoins_hops ⟨rfl, .nil⟩ h2

end ObjectQuery
