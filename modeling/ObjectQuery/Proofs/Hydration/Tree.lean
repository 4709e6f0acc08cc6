import ObjectQuery.Hydration.Plan
import ObjectQuery.Proofs.Compiler.Placeholders
import ObjectQuery.Proofs.Hydration.Grouping
import ObjectQuery.Proofs.Spelling.Query

/-! # The tree of a hydration plan

The nodes of a hydration plan are made in one pass over the joins that are written. A node looks for
its parent among the nodes before it, nearest first along the records that hold its own. The search
ends: numbers fall from a join to the one whose records hold its own, and joins without a bridge are
written in the order of their numbers, so that what is nearer to the root comes earlier.

* `JoinGraph.Nearest`: the first of some aliases on the way to the root;
* `Rooted.findSome?_ancestors`: where the search ends;
* `HydrationPlan.TreeOver`, `plan_tree`: the tree of a plan. -/

namespace ObjectQuery

variable {g : JoinGraph} {p : QueryPlan} {env : Surroundings} {T : Text} {made earlier met : List AliasId}
  {fuel i k : Nat} {s a bound : AliasId} {j : JoinNode} {js : List JoinNode} {n : HydrationNode}

/-! ## Searching for an ancestor -/

/-- In an ascending list, what is less than an element comes before it. -/
theorem mem_take_iff_of_lt {ids : List AliasId} (h : ids.Pairwise (· < ·)) (hs : ids[i]? = some s)
    (hlt : a < s) : a ∈ ids.take i ↔ a ∈ ids := by
  obtain ⟨hi, rfl⟩ := List.getElem?_eq_some_iff.1 hs
  have hsplit : ids = ids.take i ++ ids[i] :: ids.drop (i + 1) := by
    rw [List.getElem_cons_drop, List.take_append_drop]
  refine ⟨fun hmem => (List.take_sublist i ids).subset hmem, fun hmem => ?_⟩
  rw [hsplit] at h hmem
  rcases List.mem_append.1 hmem with hmem | hmem
  · exact hmem
  · have hle : ids[i] ≤ a := by
      rcases List.mem_cons.1 hmem with rfl | hmem
      · exact le_rfl
      · exact ((List.pairwise_cons.1 (List.pairwise_append.1 h).2.1).1 a hmem).le
    exact absurd hle (Nat.not_le.2 hlt)

namespace JoinGraph

/-- The first of the aliases `made` on the way from an alias, itself included, to that of the join
whose records hold its own, and so on. -/
inductive Nearest (g : JoinGraph) (made : List AliasId) : (id a : AliasId) → Prop
  | here {a : AliasId} (ha : a ∈ made) : Nearest g made a a
  | above {n : JoinNode} {s a : AliasId} (hn : n ∈ g.nodes) (hnot : n.id ∉ made)
    (hs : n.source = some s) (h : Nearest g made s a) : Nearest g made n.id a

theorem ancestorsFrom_eq_append (g : JoinGraph) (fuel : Nat) (met : List AliasId)
    (next : Option AliasId) : ∃ rest, g.ancestorsFrom fuel met next = met ++ rest := by
  induction fuel generalizing met next with
  | zero => exact ⟨[], by rw [ancestorsFrom, List.append_nil]⟩
  | succ fuel ih =>
    cases next with
    | none => exact ⟨[], by rw [ancestorsFrom, List.append_nil]⟩
    | some id =>
      rw [ancestorsFrom]
      split
      · exact ⟨[], (List.append_nil met).symm⟩
      · obtain ⟨rest, he⟩ := ih (met ++ [id]) ((g.node? id).bind (·.source))
        exact ⟨id :: rest, by rw [he, List.append_assoc]; rfl⟩

namespace Rooted

theorem nodup_records (h : g.Rooted) : g.records.Nodup := h.ascending.imp Nat.ne_of_lt

theorem length_filter_lt (h : g.Rooted) (ha : a ∈ g.records) (hlt : s < a) :
    (g.records.filter (· ≤ s)).length < (g.records.filter (· ≤ a)).length := by
  have hnodup : (a :: g.records.filter (· ≤ s)).Nodup := by
    refine List.nodup_cons.2 ⟨fun hmem => ?_, h.nodup_records.filter _⟩
    exact Nat.not_le.2 hlt (of_decide_eq_true (List.mem_filter.1 hmem).2)
  refine (hnodup.subperm fun b hb => List.mem_filter.2 ?_).length_le
  rcases List.mem_cons.1 hb with rfl | hb
  · exact ⟨ha, decide_eq_true le_rfl⟩
  · obtain ⟨hmem, hle⟩ := List.mem_filter.1 hb
    exact ⟨hmem, decide_eq_true ((of_decide_eq_true hle).trans hlt.le)⟩

/-- The search finds the nearest of the aliases `made` when those below `bound` are listed in
`earlier`. -/
theorem findSome?_ancestorsFrom (h : g.Rooted) (hnodup : g.aliases.Nodup) (hroot : g.root.id ∈ made)
    (hearlier : ∀ a < bound, a ∈ earlier ↔ a ∈ made) (hs : s ∈ g.records) (hlt : s < bound)
    (hmet : ∀ a ∈ met, s < a ∧ a ∉ earlier) (hfuel : (g.records.filter (· ≤ s)).length ≤ fuel) :
    ∃ a k, g.Nearest made s a ∧ earlier.idxOf? a = some k ∧
      (g.ancestorsFrom fuel met (some s)).findSome? earlier.idxOf? = some k := by
  -- the aliases of records up to `s` bound the way that is left: it leads to smaller numbers only
  induction fuel generalizing met s with
  | zero =>
    have hmem : s ∈ g.records.filter (· ≤ s) := List.mem_filter.2 ⟨hs, decide_eq_true le_rfl⟩
    exact absurd (List.length_pos_of_mem hmem) (Nat.not_lt.2 hfuel)
  | succ fuel ih =>
    have hnot : met.contains s = false := by
      rw [← Bool.not_eq_true, List.contains_iff_mem]
      exact fun hmem => Nat.lt_irrefl s (hmet s hmem).1
    have hskip : met.findSome? earlier.idxOf? = none :=
      List.findSome?_eq_none_iff.2 fun a ha => List.idxOf?_eq_none_iff.2 (hmet a ha).2
    simp only [ancestorsFrom, hnot, Bool.false_eq_true, if_false]
    by_cases hmade : s ∈ made
    · have hmem : s ∈ earlier := (hearlier s hlt).2 hmade
      obtain ⟨k, hk⟩ := Option.isSome_iff_exists.1 (List.isSome_idxOf?.2 hmem)
      obtain ⟨rest, he⟩ := g.ancestorsFrom_eq_append fuel (met ++ [s]) ((g.node? s).bind (·.source))
      refine ⟨s, k, .here hmade, hk, ?_⟩
      rw [he, List.append_assoc, List.findSome?_append, hskip]
      simp [hk]
    · obtain ⟨m, hm, hbridge, rfl⟩ := mem_records.1 hs
      obtain ⟨s', hs'⟩ := Option.ne_none_iff_exists'.1 fun hnone =>
        hmade ((h.top m hm).1 hnone ▸ hroot)
      obtain ⟨hrecord, hless⟩ := h.under m hm s' hs'
      have hnotEarlier : m.id ∉ earlier := fun hmem => hmade ((hearlier _ hlt).1 hmem)
      have hfewer := h.length_filter_lt hs hless
      have hmet' : ∀ a ∈ met ++ [m.id], s' < a ∧ a ∉ earlier :=
        List.forall_mem_append.2 ⟨fun a ha => ⟨hless.trans (hmet a ha).1, (hmet a ha).2⟩,
          List.forall_mem_singleton.2 ⟨hless, hnotEarlier⟩⟩
      obtain ⟨a, k, hnear, hk, hfind⟩ := ih hrecord (hless.trans hlt) hmet' (by omega)
      refine ⟨a, k, .above hm hmade hs' hnear, hk, ?_⟩
      rw [node?_of_mem hnodup hm, Option.bind_some, hs']
      exact hfind

/-- The search among `earlier`, the aliases of `made` before that of a join, ends at the nearest. -/
theorem findSome?_ancestors (h : g.Rooted) (hnodup : g.aliases.Nodup) (hroot : g.root.id ∈ made)
    (hj : j ∈ g.nodes) (hs : j.source = some s)
    (hearlier : ∀ a < j.id, a ∈ earlier ↔ a ∈ made) :
    ∃ a k, g.Nearest made s a ∧ earlier.idxOf? a = some k ∧
      (g.ancestors j.id).findSome? earlier.idxOf? = some k := by
  obtain ⟨hrecord, hlt⟩ := h.under j hj s hs
  have hfuel : (g.records.filter (· ≤ s)).length ≤ g.nodes.length + 1 := by
    have hrecords : g.records.length ≤ g.nodes.length :=
      (List.length_map _).trans_le (List.length_filter_le _ _)
    exact ((List.length_filter_le _ _).trans hrecords).trans (Nat.le_succ _)
  rw [ancestors, node?_of_mem hnodup hj, Option.bind_some, hs]
  exact h.findSome?_ancestorsFrom hnodup hroot hearlier hrecord hlt nofun hfuel

end Rooted
end JoinGraph

/-! ## The nodes of a hydration plan -/

/-- The node is made for the join. -/
structure HydrationNode.StandsFor (p : QueryPlan) (n : HydrationNode) (j : JoinNode) : Prop where
  userAlias : n.userAlias = j.effectiveAlias
  sqlAlias : n.sqlAlias = p.aliases.get j.id
  component : n.component = j.component.name
  relation : n.relation = j.relation.map (·.name)
  kind : n.kind = j.relation.map (·.kind)

namespace HydrationPlan

theorem getElem?_nodesFrom : (nodesFrom p earlier js)[i]? =
    js[i]?.map (nodeOf p (earlier ++ (js.take i).map (·.id))) := by
  induction js generalizing earlier i with
  | nil => rfl
  | cons j js ih =>
    cases i with
    | zero => simp [nodesFrom]
    | succ i => simp [nodesFrom, ih]

@[simp] theorem length_nodesFrom : (nodesFrom p earlier js).length = js.length := by
  induction js generalizing earlier with
  | nil => rfl
  | cons j js ih => rw [nodesFrom, List.length_cons, ih, List.length_cons]

/-- The node of the join at position `i`. -/
def nodeAt (p : QueryPlan) (i : Nat) (j : JoinNode) : HydrationNode :=
  completeNode ((hydratedNodes p).map (·.id)) (nodesFrom p [] (hydratedNodes p))
    (p.clauses.select.filterMap (aggregateBinding p.aliases))
    (nodeOf p (((hydratedNodes p).take i).map (·.id)) j) i

theorem getElem?_ofQueryPlan (p : QueryPlan) (i : Nat) :
    (ofQueryPlan p).nodes[i]? = (hydratedNodes p)[i]?.map (nodeAt p i) := by
  simp only [ofQueryPlan, List.getElem?_map, List.getElem?_zipIdx, getElem?_nodesFrom,
    List.nil_append, Option.map_map, Nat.zero_add]
  rfl

theorem exists_of_getElem?_ofQueryPlan (h : (ofQueryPlan p).nodes[i]? = some n) :
    ∃ j, (hydratedNodes p)[i]? = some j ∧ n = nodeAt p i j := by
  rw [getElem?_ofQueryPlan] at h
  obtain ⟨j, hj, rfl⟩ := Option.map_eq_some_iff.1 h
  exact ⟨j, hj, rfl⟩

/-- The positions at which a list holds elements of a kind. -/
theorem map_snd_filter_zipIdx {α : Type} (xs : List α) (q : α → Bool) :
    (xs.zipIdx.filter fun c => q c.1).map (·.2) =
      (List.range xs.length).filter fun k => xs[k]?.any q := by
  have hq : xs.zipIdx.filter (fun c => q c.1) =
      xs.zipIdx.filter ((fun k => xs[k]?.any q) ∘ Prod.snd) :=
    List.filter_congr fun c hc => by
      rw [Function.comp_apply, List.mem_zipIdx_iff_getElem?.1 hc, Option.any_some]
  rw [hq, ← List.filter_map, List.zipIdx_map_snd, List.range_eq_range']

theorem forall₂_nodes {R : HydrationNode → JoinNode → Prop}
    (h : ∀ i j, (hydratedNodes p)[i]? = some j → R (nodeAt p i j) j) :
    List.Forall₂ R (ofQueryPlan p).nodes (hydratedNodes p) := by
  refine List.forall₂_iff_get.2 ⟨?_, fun i hi hi' => ?_⟩
  · simp [ofQueryPlan]
  · obtain ⟨j, hj, he⟩ := exists_of_getElem?_ofQueryPlan (List.getElem?_eq_getElem hi)
    obtain ⟨_, he'⟩ := List.getElem?_eq_some_iff.1 hj
    rw [List.get_eq_getElem, List.get_eq_getElem, he, he']
    exact h i j hj

/-- The children of a node are the nodes that name it as their parent, in order. -/
theorem children_nodeAt (p : QueryPlan) (i : Nat) (j : JoinNode) : (nodeAt p i j).children =
    (List.range (ofQueryPlan p).nodes.length).filter fun k =>
      (ofQueryPlan p).nodes[k]?.any (·.parent == some i) := by
  have hchildren := map_snd_filter_zipIdx (nodesFrom p [] (hydratedNodes p)) (·.parent == some i)
  refine hchildren.trans ?_
  have hlength : (nodesFrom p [] (hydratedNodes p)).length = (ofQueryPlan p).nodes.length := by
    simp [ofQueryPlan]
  rw [hlength]
  refine List.filter_congr fun k _ => ?_
  rw [getElem?_ofQueryPlan, getElem?_nodesFrom, Option.any_map, Option.any_map]
  rfl

end HydrationPlan

/-! ## Joins for which records are made -/

open HydrationPlan

section
variable {ok : Spelling} {b : Bindings} {c : ClauseSet} {f : SelectedField} {N : Nat}

theorem Surroundings.spells_any (env : Surroundings) : env.Spells fun _ _ => True where
  column _ _ _ _ := trivial
  test _ _ _ _ := trivial
  relation _ _ _ _ x _ := by cases x <;> simp [Expansion.Spelled]

/-- Records are made for the root and for the aliases of columns that are selected, bridges left
out. -/
theorem PlanOver.mem_hydratedNodes (ho : PlanOver env N p) (hnodup : p.graph.aliases.Nodup)
    (hj : j ∈ p.graph.nodes) :
    j ∈ hydratedNodes p ↔ j.role ≠ .bridge ∧
      (j.id = p.graph.root.id ∨ ∃ f, .field f ∈ p.clauses.select ∧ f.owner = j.id) := by
  have hselected : (p.clauses.select.filterMap (·.field?)).any (·.owner == j.id) = true ↔
      ∃ f, .field f ∈ p.clauses.select ∧ f.owner = j.id := by
    simp only [List.any_eq_true, beq_iff_eq, SelectItem.mem_filterMap_field?]
  rw [hydratedNodes, List.mem_filter, isHydrated, Bool.and_eq_true, Bool.or_eq_true, bne_iff_ne,
    beq_iff_eq, hselected]
  refine and_iff_right_of_imp fun ⟨_, hmade⟩ => ?_
  have hemitted : j.id ∈ p.emitted := by
    rcases hmade with hroot | ⟨f, hf, ho'⟩
    · exact hroot ▸ List.mem_of_head? ho.emits.root
    · refine ho.emits.reads _ (ClauseSet.mem_reads.2 (.inl ⟨_, hf, ho'.symm⟩)) ?_
      exact List.mem_map_of_mem hj
  exact List.mem_filterMap.2 ⟨j.id, hemitted, JoinGraph.node?_of_mem hnodup hj⟩

section
variable (hp : PlanPlaced env ok b c p)
include hp

/-- Columns that are selected belong to aliases of joins that are no bridges. -/
theorem PlanPlaced.owner_mem_records (hf : .field f ∈ p.clauses.select) :
    f.owner ∈ p.graph.records := by
  obtain ⟨ts, he⟩ := hp.completed
  have hup : p.graph.ClosedUpward {a | a ∈ p.graph.records} :=
    fun n hn _ s hs => (hp.joins.rooted.under n hn s hs).1
  have hselect := completed_reselects hup hp.reads p.aliases p.emitted ts
  rw [← he] at hselect
  rcases hselect.field f hf with ho | ⟨f', hf', ho⟩
  · exact ho
  · exact hp.reads _ (ClauseSet.mem_reads.2 (.inl ⟨_, hf', ho.symm⟩))

variable (hnodup : p.graph.aliases.Nodup)
include hnodup

theorem PlanPlaced.emittedNodes_eq :
    p.emittedNodes.Sublist p.graph.nodes ∧ p.emittedNodes.map (·.id) = p.emitted := by
  obtain ⟨ns, hns, he⟩ := List.sublist_map_iff.1 hp.written
  have hnodes : p.emittedNodes = ns := by
    rw [QueryPlan.emittedNodes, he, JoinGraph.filterMap_node? hnodup fun n hn => hns.subset hn]
  exact ⟨hnodes ▸ hns, hnodes ▸ he.symm⟩

theorem PlanPlaced.mem_nodes_of_mem_hydratedNodes (hj : j ∈ hydratedNodes p) :
    j ∈ p.graph.nodes :=
  (hp.emittedNodes_eq hnodup).1.subset (List.mem_filter.1 hj).1

/-- Joins for which records are made are listed in the order of their numbers. -/
theorem PlanPlaced.ascending : ((hydratedNodes p).map (·.id)).Pairwise (· < ·) := by
  refine hp.joins.rooted.ascending.sublist (List.Sublist.map _ ?_)
  have hhydrated : hydratedNodes p = (hydratedNodes p).filter (·.role != .bridge) := by
    refine (List.filter_eq_self.2 fun j hj => ?_).symm
    exact (Bool.and_eq_true_iff.1 (List.mem_filter.1 hj).2).1
  rw [hhydrated]
  exact (List.filter_sublist.trans (hp.emittedNodes_eq hnodup).1).filter _

variable (ho : PlanOver env N p)
include ho

theorem PlanPlaced.head_hydratedNodes : (hydratedNodes p).head? = some p.graph.root := by
  have hhead := ho.emits.root
  rw [← (hp.emittedNodes_eq hnodup).2, List.head?_map] at hhead
  obtain ⟨m, hm, hid⟩ := Option.map_eq_some_iff.1 hhead
  obtain ⟨ms, hms⟩ := List.head?_eq_some_iff.1 hm
  have hroot : m = p.graph.root :=
    List.inj_on_of_nodup_map hnodup ((hp.emittedNodes_eq hnodup).1.subset (List.mem_of_head? hm))
      List.mem_cons_self hid
  have hmade : isHydrated p p.graph.root = true := by
    simp [isHydrated, hp.joins.rooted.root]
  rw [hydratedNodes, hms, hroot, List.filter_cons, if_pos hmade]
  rfl

/-- A join for which records are made has a parent, unless it is the root: the nearest of those whose
records hold its own. -/
theorem PlanPlaced.parent_nodeAt (hi : i ≠ 0) (hj : (hydratedNodes p)[i]? = some j) :
    ∃ k s m, k < i ∧ (nodeAt p i j).parent = some k ∧ j.source = some s ∧
      (hydratedNodes p)[k]? = some m ∧
        p.graph.Nearest ((hydratedNodes p).map (·.id)) s m.id := by
  have hasc := hp.ascending hnodup
  have hjs := hp.mem_nodes_of_mem_hydratedNodes hnodup (List.mem_of_getElem? hj)
  have hid : ((hydratedNodes p).map (·.id))[i]? = some j.id := by
    rw [List.getElem?_map, hj, Option.map_some]
  have hroot : ((hydratedNodes p).map (·.id))[0]? = some p.graph.root.id := by
    rw [← List.head?_eq_getElem?, List.head?_map, hp.head_hydratedNodes hnodup ho, Option.map_some]
  have hne : j.id ≠ p.graph.root.id := fun he =>
    hi ((List.getElem?_inj (List.getElem?_eq_some_iff.1 hid).1 (hasc.imp Nat.ne_of_lt)).1
      (by rw [hid, hroot, he]))
  obtain ⟨s, hs⟩ := Option.ne_none_iff_exists'.1 fun hnone =>
    hne ((hp.joins.rooted.top j hjs).1 hnone)
  obtain ⟨a, k, hnear, hk, hparent⟩ := hp.joins.rooted.findSome?_ancestors hnodup
    (List.mem_of_getElem? hroot) hjs hs fun a ha => mem_take_iff_of_lt hasc hid ha
  obtain ⟨hlt, hk, -⟩ := List.idxOf?_eq_some_iff.1 hk
  rw [List.getElem_take, List.getElem_map] at hk
  rw [← List.map_take] at hparent
  refine ⟨k, s, _, ?_, hparent, hs, List.getElem?_eq_getElem _, hk ▸ hnear⟩
  exact hlt.trans_le (List.length_take_le _ _)

theorem PlanPlaced.getElem?_root :
    (ofQueryPlan p).nodes[0]? = some (nodeAt p 0 p.graph.root) := by
  rw [getElem?_ofQueryPlan, ← List.head?_eq_getElem?, hp.head_hydratedNodes hnodup ho,
    Option.map_some]

end
end

/-! ## Main result -/

theorem HydrationPlan.parent_nodeAt_zero : (nodeAt p 0 j).parent = none :=
  List.findSome?_eq_none_iff.2 fun _ _ => List.idxOf?_nil

/-- The children of a node are the nodes that name it as their parent, in order. -/
theorem HydrationPlan.children_eq (hn : (ofQueryPlan p).nodes[i]? = some n) : n.children =
    (List.range (ofQueryPlan p).nodes.length).filter fun k =>
      (ofQueryPlan p).nodes[k]?.any (·.parent == some i) := by
  obtain ⟨j, -, rfl⟩ := exists_of_getElem?_ofQueryPlan hn
  exact children_nodeAt p i j

theorem plan_isTree (h : plan env T = .ok p) : (ofQueryPlan p).IsTree := by
  obtain ⟨b, c, hp⟩ := plan_placed env.spells_any h
  obtain ⟨N, ho⟩ := plan_over h
  obtain ⟨q, -, hq⟩ := (plan_spec h).query
  have hnodup := hq.graph.nodup
  refine { root := ⟨_, hp.getElem?_root hnodup ho, parent_nodeAt_zero⟩, parent := fun i n hn hi => ?_,
           children := fun i n hn c => ?_, nodup := fun n hn => ?_ }
  · obtain ⟨j, hj, rfl⟩ := exists_of_getElem?_ofQueryPlan hn
    obtain ⟨k, -, -, hlt, hparent, -⟩ := hp.parent_nodeAt hnodup ho hi hj
    exact ⟨k, hlt, hparent⟩
  · rw [children_eq hn, List.mem_filter, List.mem_range, Option.any_eq_true]
    simp only [beq_iff_eq]
    refine and_iff_right_of_imp fun ⟨m, hm, _⟩ => ?_
    exact (List.getElem?_eq_some_iff.1 hm).1
  · obtain ⟨i, hi⟩ := List.mem_iff_getElem?.1 hn
    rw [children_eq hi]
    exact List.nodup_range.filter _

/-- The hydration plan is a tree over joins of the query plan: each of its nodes is made for one of
them, with the root first. They are the root and the joins of which a column is selected, bridges left
out; the parent of any other node than the root is the nearest of the joins whose records hold its
own, and its children are the nodes that name it as their parent, in order. -/
structure HydrationPlan.TreeOver (h : HydrationPlan) (p : QueryPlan) (joins : List JoinNode) : Prop
    extends h.IsTree where
  nodes : List.Forall₂ (HydrationNode.StandsFor p) h.nodes joins
  head : joins.head? = some p.graph.root
  joined : ∀ j ∈ joins, j ∈ p.graph.nodes
  written : joins.Sublist p.emittedNodes
  distinct : (joins.map (·.id)).Nodup
  made : ∀ j ∈ p.graph.nodes, j ∈ joins ↔ j.role ≠ .bridge ∧
    (j.id = p.graph.root.id ∨ ∃ f, .field f ∈ p.clauses.select ∧ f.owner = j.id)
  owners : ∀ f, .field f ∈ p.clauses.select → f.owner ∈ joins.map (·.id)
  ordered : ∀ (i : Nat) n, h.nodes[i]? = some n → n.children =
    (List.range h.nodes.length).filter fun k => h.nodes[k]?.any (·.parent == some i)
  nearest : ∀ (i : Nat) n j k, h.nodes[i]? = some n → joins[i]? = some j → n.parent = some k →
    ∃ s m, j.source = some s ∧ joins[k]? = some m ∧ p.graph.Nearest (joins.map (·.id)) s m.id

namespace Sample

/-- Users with their phones. -/
def listed : Text := "SELECT u.name, p.number FROM User u LEFT JOIN u.phones p".toList

end Sample

/-- The hydration plan of a query is a tree over the joins for which records are made. -/
theorem plan_tree (h : plan env T = .ok p) : (ofQueryPlan p).TreeOver p (hydratedNodes p) := by
  obtain ⟨b, c, hp⟩ := plan_placed env.spells_any h
  obtain ⟨N, ho⟩ := plan_over h
  obtain ⟨q, -, hq⟩ := (plan_spec h).query
  have hnodup := hq.graph.nodup
  refine { plan_isTree h with
           nodes := forall₂_nodes fun i j _ => ⟨rfl, rfl, rfl, rfl, rfl⟩,
           head := hp.head_hydratedNodes hnodup ho,
           joined := fun j hj => hp.mem_nodes_of_mem_hydratedNodes hnodup hj,
           written := List.filter_sublist,
           distinct := (hp.ascending hnodup).imp Nat.ne_of_lt,
           made := fun j hj => ho.mem_hydratedNodes hnodup hj, owners := fun f hf => ?_,
           ordered := fun i n hn => children_eq hn, nearest := fun i n j k hn hj hparent => ?_ }
  · obtain ⟨j, hj, hbridge, hid⟩ := JoinGraph.mem_records.1 (hp.owner_mem_records hf)
    exact hid ▸ List.mem_map_of_mem
      ((ho.mem_hydratedNodes hnodup hj).2 ⟨hbridge, .inr ⟨f, hf, hid.symm⟩⟩)
  · obtain ⟨j', hj', rfl⟩ := exists_of_getElem?_ofQueryPlan hn
    cases hj.symm.trans hj'
    have hi : i ≠ 0 := by
      rintro rfl
      rw [parent_nodeAt_zero] at hparent
      cases hparent
    obtain ⟨k', s, m, -, hparent', hs, hm, hnear⟩ := hp.parent_nodeAt hnodup ho hi hj
    cases hparent.symm.trans hparent'
    exact ⟨s, m, hs, hm, hnear⟩

/-- Phones are held by users. -/
theorem plan_tree_listed : ∃ p, plan Sample.compiler.toSurroundings Sample.listed = .ok p ∧
    p.emitted = [0, 1] ∧ (ofQueryPlan p).TreeOver p (hydratedNodes p) := by
  obtain ⟨p, hp, hemitted⟩ : ∃ p, plan Sample.compiler.toSurroundings Sample.listed = .ok p ∧
      p.emitted = [0, 1] := by decide +kernel
  exact ⟨p, hp, hemitted, plan_tree hp⟩

end ObjectQuery
