import ObjectQuery.Proofs.Plan.Emission

/-! # Graphs whose nodes hang under one another -/

namespace ObjectQuery
namespace JoinGraph

variable {g : JoinGraph} {a : AliasId}

/-- The aliases of the nodes that are no bridges, in the order they are declared. -/
def records (g : JoinGraph) : List AliasId := (g.nodes.filter (·.role != .bridge)).map (·.id)

/-- The nodes hang under one another: all but the root are held by a node with a lower number that
is no bridge, and nodes that are no bridges are numbered in the order they are declared. -/
structure Rooted (g : JoinGraph) : Prop where
  root : g.root.role ≠ .bridge
  top : ∀ n ∈ g.nodes, n.source = none ↔ n.id = g.root.id
  under : ∀ n ∈ g.nodes, ∀ s ∈ n.source, s ∈ g.records ∧ s < n.id
  ascending : g.records.Pairwise (· < ·)

theorem mem_records : a ∈ g.records ↔ ∃ n ∈ g.nodes, n.role ≠ .bridge ∧ n.id = a := by
  simp only [records, List.mem_map, List.mem_filter, bne_iff_ne, and_assoc]

theorem mem_aliases_of_mem_records (h : a ∈ g.records) : a ∈ g.aliases := by
  obtain ⟨n, hn, -, rfl⟩ := mem_records.1 h
  exact List.mem_map_of_mem hn

end JoinGraph
end ObjectQuery
