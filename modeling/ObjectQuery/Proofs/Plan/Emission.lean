import ObjectQuery.Proofs.Plan.Reads
import ObjectQuery.Proofs.Plan.Retention

/-! # The order in which joins are written

When no node is joined on one that is declared after it, joins are written in the order they are
declared: the first node that waits is always ready.

* `emit_eq`: one pass over the pending nodes;
* `emissionOrder_eq`, `emissionOrder_aliases`: the joins of a graph;
* `mem_before`: a join comes after those that it depends on;
* `Emits`: what is known of the joins that are written. -/

namespace ObjectQuery
namespace JoinGraph

variable {g : JoinGraph} {keep : AliasSet} {pre pending : List JoinNode} {n : JoinNode}

/-- A node is ready when everything before it is written and it needs nothing after it. -/
theorem isReady_of_before (hn : ∀ m ∈ pending, m.id ∉ n.dependsOn)
    (hk : ∀ a ∈ n.dependsOn, a ∈ keep → a ∈ (pre ++ n :: pending).map (·.id)) :
    isReady keep (pre.map (·.id)) n = true := by
  refine List.all_eq_true.2 fun a ha => ?_
  rw [Bool.or_eq_true, List.contains_iff_mem, Bool.not_eq_true', decide_eq_false_iff_not]
  by_cases hkeep : a ∈ keep
  · have hmem := hk a ha hkeep
    rw [List.map_append, List.mem_append] at hmem
    refine .inl (hmem.resolve_right fun hlater => ?_)
    obtain ⟨m, hm, rfl⟩ := List.mem_map.1 hlater
    rcases List.mem_cons.1 hm with rfl | hm
    · exact (JoinNode.mem_dependsOn ha).1 rfl
    · exact hn m hm ha
  · exact .inr hkeep

theorem emit_eq (pre : List JoinNode)
    (hd : (pre ++ pending).Pairwise fun m n => n.id ∉ m.dependsOn)
    (hk : ∀ n ∈ pending, ∀ a ∈ n.dependsOn, a ∈ keep → a ∈ (pre ++ pending).map (·.id)) :
    emit keep pending.length (pre.map (·.id)) pending = (pre ++ pending).map (·.id) := by
  induction pending generalizing pre with
  | nil => simp [emit]
  | cons n pending ih =>
    have hn : ∀ m ∈ pending, m.id ∉ n.dependsOn :=
      (List.pairwise_cons.1 (List.pairwise_append.1 hd).2.1).1
    have hready : isReady keep (pre.map (·.id)) n = true :=
      isReady_of_before hn (hk n List.mem_cons_self)
    have hsplit : pre ++ n :: pending = pre ++ [n] ++ pending := by simp
    rw [List.length_cons, emit, takeReady, if_pos hready]
    rw [hsplit] at hd hk ⊢
    have := ih (pre ++ [n]) hd fun m hm => hk m (List.mem_cons_of_mem _ hm)
    rwa [List.map_append] at this

/-- The joins to keep are written in the order they are declared. -/
theorem emissionOrder_eq (hd : g.nodes.Pairwise fun m n => n.id ∉ m.dependsOn)
    (hk : ∀ a ∈ keep, a ∈ g.aliases) :
    g.emissionOrder keep = (g.nodes.filter fun n => decide (n.id ∈ keep)).map (·.id) := by
  have hd' := hd.sublist (List.filter_sublist (p := fun n => decide (n.id ∈ keep)))
  refine emit_eq [] hd' fun n _ a _ ha => ?_
  obtain ⟨m, hm, rfl⟩ := List.mem_map.1 (hk a ha)
  exact List.mem_map_of_mem (List.mem_filter.2 ⟨hm, decide_eq_true ha⟩)

theorem emissionOrder_aliases (hd : g.nodes.Pairwise fun m n => n.id ∉ m.dependsOn) :
    g.emissionOrder (AliasSet.ofList g.aliases) = g.aliases := by
  rw [emissionOrder_eq hd fun a ha => AliasSet.mem_ofList.1 ha, List.filter_eq_self.2]
  · rfl
  · intro n hn
    exact decide_eq_true (AliasSet.mem_ofList.2 (List.mem_map_of_mem hn))

/-! ## Nodes by their aliases -/

theorem node?_of_mem {n : JoinNode} (hnodup : g.aliases.Nodup) (hn : n ∈ g.nodes) :
    g.node? n.id = some n := by
  rw [node?, List.find?_eq_some_iff_append]
  obtain ⟨pre, post, hsplit⟩ := List.append_of_mem hn
  refine ⟨beq_self_eq_true _, pre, post, hsplit, fun m hm => ?_⟩
  rw [aliases, hsplit, List.map_append, List.map_cons] at hnodup
  have hne : m.id ≠ n.id :=
    (List.nodup_append.1 hnodup).2.2 m.id (List.mem_map_of_mem hm) n.id List.mem_cons_self
  simpa using hne

/-- The nodes of some aliases of the graph, found again by their aliases. -/
theorem filterMap_node? (hnodup : g.aliases.Nodup) {ns : List JoinNode} (h : ∀ n ∈ ns, n ∈ g.nodes) :
    (ns.map (·.id)).filterMap g.node? = ns := by
  rw [List.filterMap_map]
  refine (List.filterMap_congr fun n hn => ?_).trans List.filterMap_some
  exact node?_of_mem hnodup (h n hn)

/-- Among nodes of which none is joined on a later one, what a node is joined on comes before it. -/
theorem mem_before {ns : List JoinNode} {pre post : List AliasId} {id a : AliasId}
    (hd : ns.Pairwise fun m n => n.id ∉ m.dependsOn) (hns : ∀ m ∈ ns, g.node? m.id = some m)
    (hsplit : ns.map (·.id) = pre ++ id :: post) (hn : g.node? id = some n)
    (ha : a ∈ n.dependsOn) (hmem : a ∈ ns.map (·.id)) : a ∈ pre := by
  obtain ⟨before, rest, rfl, rfl, hrest⟩ := List.map_eq_append_iff.1 hsplit
  obtain ⟨m, after, rfl, rfl, rfl⟩ := List.map_eq_cons_iff.1 hrest
  obtain rfl : m = n := Option.some_inj.1 ((hns m (by simp)).symm.trans hn)
  rw [List.map_append, List.mem_append, List.map_cons, List.mem_cons] at hmem
  rcases hmem with hmem | rfl | hmem
  · exact hmem
  · exact absurd rfl (JoinNode.mem_dependsOn ha).1
  · obtain ⟨k, hk, rfl⟩ := List.mem_map.1 hmem
    exact absurd ha ((List.pairwise_cons.1 (List.pairwise_append.1 hd).2.1).1 k hk)

/-! ## What is written -/

/-- What is known of the joins that are written for clauses that read `referenced`: the root comes
first, and every join comes after those that it depends on. -/
structure Emits (g : JoinGraph) (referenced : AliasSet) (emitted : List AliasId) : Prop where
  root : emitted.head? = some g.root.id
  nodup : emitted.Nodup
  subset : ∀ a ∈ emitted, a ∈ g.aliases
  reads : ∀ a ∈ referenced, a ∈ g.aliases → a ∈ emitted
  closed : ∀ n ∈ g.nodes, n.id ∈ emitted → ∀ a ∈ n.dependsOn, a ∈ g.aliases → a ∈ emitted
  before : ∀ pre id post n, emitted = pre ++ id :: post → g.node? id = some n →
    ∀ a ∈ n.dependsOn, a ∈ g.aliases → a ∈ pre

/-- The joins of a closed set with the root and all that is read. -/
theorem Emits.ofClosed {referenced : AliasSet} (hnodup : g.aliases.Nodup)
    (hd : g.nodes.Pairwise fun m n => n.id ∉ m.dependsOn) (hk : ∀ a ∈ keep, a ∈ g.aliases)
    (hc : g.Closed keep) (hroot : g.root.id ∈ keep)
    (hreads : ∀ a ∈ referenced, a ∈ g.aliases → a ∈ keep) :
    g.Emits referenced (g.emissionOrder keep) := by
  have hmem {a : AliasId} : a ∈ g.emissionOrder keep ↔ a ∈ keep := by
    rw [emissionOrder_eq hd hk, List.mem_map]
    constructor
    · rintro ⟨n, hn, rfl⟩
      exact of_decide_eq_true (List.mem_filter.1 hn).2
    · intro ha
      obtain ⟨n, hn, rfl⟩ := List.mem_map.1 (hk a ha)
      exact ⟨n, List.mem_filter.2 ⟨hn, decide_eq_true ha⟩, rfl⟩
  refine ⟨?_, ?_, fun a ha => hk a (hmem.1 ha), fun a ha hg => hmem.2 (hreads a ha hg),
    fun n hn hid a ha hg => hmem.2 (hc n hn (hmem.1 hid) a ha hg), ?_⟩
  · rw [emissionOrder_eq hd hk, nodes, List.filter_cons, if_pos (decide_eq_true hroot)]
    rfl
  · rw [emissionOrder_eq hd hk]
    exact hnodup.sublist (List.filter_sublist.map _)
  · intro pre id post n hsplit hn a ha hg
    have hid : n.id = id := by simpa using List.find?_some hn
    have hkept : a ∈ g.emissionOrder keep := by
      refine hmem.2 (hc n (List.mem_of_find?_eq_some hn) (hmem.1 ?_) a ha hg)
      rw [hsplit, hid]
      exact List.mem_append_right _ List.mem_cons_self
    rw [emissionOrder_eq hd hk] at hsplit hkept
    exact mem_before (hd.sublist List.filter_sublist)
      (fun m hm => node?_of_mem hnodup (List.mem_filter.1 hm).1) hsplit hn ha hkept

end JoinGraph
end ObjectQuery
