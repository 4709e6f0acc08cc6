import Mathlib
import ObjectQuery.Hydration.Hydrator
import ObjectQuery.Proofs.Success

/-! # Nested grouping

What rows amount to, said without a forest: at every node the rows are grouped by their key paths,
and the group of a key path becomes a record below that of the path before its last step.

* `HydrationPlan.IsTree`: plans whose nodes form a tree in plan order;
* `HydrationPlan.keyPath`: the key path of a row at a node;
* `HydrationPlan.groups`: the groups at a node, in order of first occurrence;
* `HydrationPlan.nested`: the record of a group, with the collections below it;
* `HydrationPlan.grouping`: the records of all groups, nested, when no collection has keys. -/

namespace ObjectQuery

/-- The nodes form a tree: the root comes first, every other node after its parent, and the children
of a node are the nodes whose parent it is, each once. -/
structure HydrationPlan.IsTree (p : HydrationPlan) : Prop where
  root : ∃ n, p.nodes[0]? = some n ∧ n.parent = none
  parent : ∀ (i : Nat) n, p.nodes[i]? = some n → i ≠ 0 → ∃ j, j < i ∧ n.parent = some j
  children : ∀ (i : Nat) n, p.nodes[i]? = some n →
    ∀ c, c ∈ n.children ↔ ∃ m, p.nodes[c]? = some m ∧ m.parent = some i
  nodup : ∀ n ∈ p.nodes, n.children.Nodup

/-! ## Key paths -/

/-- The identities of a row from the root down to a node, each with its node; `none` when the row
has no record at some node on the way. -/
def HydrationPlan.keyPath (p : HydrationPlan) (row : Row) (number i : Nat) : Option KeyPath :=
  match p.nodes[i]? with
  | none => none
  | some n =>
    match n.identity row number with
    | .error _ | .ok none => none
    | .ok (some identity) =>
      match n.parent with
      | none => some [(i, identity)]
      | some j =>
        if j < i then (p.keyPath row number j).map fun path => path ++ [(i, identity)] else none
termination_by i

/-- A row shows the record with a key path. -/
structure Sighting where
  path : KeyPath
  row : Row

namespace Sighting

/-- The node and the identity of the record. -/
def step (s : Sighting) : Nat × List String := s.path.getLastD (0, [])

/-- The key path of the record that holds it. -/
def holder (s : Sighting) : KeyPath := s.path.dropLast

/-- The first sighting of every record. -/
def firsts (ss : List Sighting) : List Sighting :=
  ss.foldl (fun fs s => if s.path ∈ fs.map (·.path) then fs else fs ++ [s]) []

variable {ss : List Sighting} {s : Sighting}

theorem firsts_concat (ss : List Sighting) (s : Sighting) : firsts (ss ++ [s]) =
    if s.path ∈ (firsts ss).map (·.path) then firsts ss else firsts ss ++ [s] := by
  rw [firsts, List.foldl_append]; rfl

theorem mem_of_mem_firsts (h : s ∈ firsts ss) : s ∈ ss := by
  induction ss using List.reverseRecOn with
  | nil => exact h
  | append_singleton ss x ih =>
    rw [firsts_concat] at h
    split at h
    · exact List.mem_append_left _ (ih h)
    · rcases List.mem_append.1 h with h | h
      · exact List.mem_append_left _ (ih h)
      · exact List.mem_append_right _ h

theorem mem_paths_firsts (path : KeyPath) :
    path ∈ (firsts ss).map (·.path) ↔ path ∈ ss.map (·.path) := by
  induction ss using List.reverseRecOn with
  | nil => rfl
  | append_singleton ss x ih =>
    rw [firsts_concat]
    split
    · rename_i hx
      rw [List.map_append, List.mem_append, ih]
      refine ⟨.inl, fun h => h.elim id fun h => ?_⟩
      have he : path = x.path := List.mem_singleton.1 h
      exact ih.1 (he ▸ hx)
    · rw [List.map_append, List.map_append, List.mem_append, List.mem_append, ih]

theorem nodup_firsts (ss : List Sighting) : ((firsts ss).map (·.path)).Nodup := by
  induction ss using List.reverseRecOn with
  | nil => exact List.nodup_nil
  | append_singleton ss x ih =>
    rw [firsts_concat]
    split
    · exact ih
    · rename_i hx
      rw [List.map_append, List.map_singleton, List.nodup_append]
      refine ⟨ih, List.nodup_singleton _, fun a ha b hb => ?_⟩
      rw [List.mem_singleton.1 hb]
      rintro rfl
      exact hx ha

/-- What is asked of key paths may be asked before or after repetitions are left out. -/
theorem firsts_filter (q : KeyPath → Bool) (ss : List Sighting) :
    (firsts ss).filter (fun s => q s.path) = firsts (ss.filter fun s => q s.path) := by
  induction ss using List.reverseRecOn with
  | nil => rfl
  | append_singleton ss x ih =>
    rw [List.filter_append, firsts_concat]
    cases hq : q x.path with
    | false =>
      rw [List.filter_cons_of_neg (by simp [hq]), List.filter_nil, List.append_nil, ← ih]
      split
      · rfl
      · rw [List.filter_append, List.filter_cons_of_neg (by simp [hq]), List.filter_nil,
          List.append_nil]
    | true =>
      have hmem : x.path ∈ (firsts (ss.filter fun s => q s.path)).map (·.path) ↔
          x.path ∈ (firsts ss).map (·.path) := by
        rw [← ih]
        simp only [List.mem_map, List.mem_filter]
        constructor
        · rintro ⟨s, ⟨hs, -⟩, he⟩
          exact ⟨s, hs, he⟩
        · rintro ⟨s, hs, he⟩
          exact ⟨s, ⟨hs, he ▸ hq⟩, he⟩
      rw [List.filter_cons_of_pos (by simp [hq]), List.filter_nil, firsts_concat]
      by_cases hx : x.path ∈ (firsts ss).map (·.path)
      · rw [if_pos hx, if_pos (hmem.2 hx), ih]
      · rw [if_neg hx, if_neg fun h => hx (hmem.1 h), List.filter_append, ih,
          List.filter_cons_of_pos (by simp [hq]), List.filter_nil]

end Sighting

/-! ## Records -/

/-- The data of the record of a row. -/
def HydrationNode.dataOf (n : HydrationNode) (row : Row) : List (String × Value) :=
  match n.readAll row n.bindings with
  | .ok values => Fields.ofPairs ((n.bindings.map (·.key)).zip values)
  | .error _ => []

/-- The key of the record of a row, if the records of the node have keys. -/
def HydrationNode.keyIn (n : HydrationNode) (row : Row) : Option String :=
  n.indexBy.map fun output => indexKey ((row.get? output).getD .null)

/-- The row has the column that keys the collections of the node, if there is one. -/
def HydrationNode.IndexedIn (n : HydrationNode) (row : Row) : Prop :=
  ∀ output, n.indexBy = some output → ∃ v, row.get? output = some v

/-- A branch made from a row has its data and its key. -/
theorem Branch.eq_of_ofRow {n : HydrationNode} {i : Nat} {identity : List String}
    {row : Row} {new : Branch} (h : ofRow n i identity row = .ok new) :
    n.IndexedIn row ∧ ∃ values, n.readAll row n.bindings = .ok values ∧ new =
      ⟨i, identity, n.keyIn row, Fields.ofPairs ((n.bindings.map (·.key)).zip values), []⟩ := by
  rw [Branch.ofRow] at h
  obtain ⟨values, hvalues, h⟩ := Except.bind_eq_ok.1 h
  rw [HydrationNode.keyIn, HydrationNode.IndexedIn]
  cases hindex : n.indexBy with
  | none =>
    simp only [hindex] at h
    cases h
    exact ⟨nofun, values, hvalues, rfl⟩
  | some output =>
    simp only [hindex, HydrationNode.readOutput] at h
    cases hv : row.get? output with
    | none =>
      rw [hv] at h
      cases h
    | some v =>
      rw [hv] at h
      cases h
      refine ⟨fun output' he => ?_, values, hvalues, by rw [Option.map_some, hv]; rfl⟩
      cases he
      exact ⟨v, hv⟩

/-- What a record holds at a node: a collection, or the latest of the records. -/
def HydrationNode.related (n : HydrationNode) (records : List Record) : Related :=
  if n.isCollection then .many ⟨n.component, none, records⟩ else .one records.getLast?

namespace HydrationPlan

/-- The records that rows show at a node, row by row; the first row has the number 1. -/
def sightings (p : HydrationPlan) (rows : List Row) (i : Nat) : List Sighting :=
  (rows.zipIdx 1).filterMap fun r => (p.keyPath r.1 r.2 i).map fun path => ⟨path, r.1⟩

/-- The distinct key paths of a node that go on from that of a holder, in order of first occurrence,
each with the first row that has it. -/
def groups (p : HydrationPlan) (rows : List Row) (i : Nat) (holder : KeyPath) : List Sighting :=
  (Sighting.firsts (p.sightings rows i)).filter fun s => s.holder = holder

/-- The record of a group at a node, with the records below it placed as they were made. -/
def nested (p : HydrationPlan) (rows : List Row) (i : Nat) (g : Sighting) : Record :=
  match p.nodes[i]? with
  | none => ⟨"", [], []⟩
  | some n => ⟨n.component, n.dataOf g.row, n.children.filterMap fun c =>
      match _ : p.nodes[c]? with
      | none => none
      | some m =>
        if _ : i < c then
          some (m.slotName, Related.ofEntries m
            ((p.groups rows c g.path).map fun g' => ⟨c, m.keyIn g'.row, p.nested rows c g'⟩))
        else none⟩
termination_by p.nodes.length - i
decreasing_by
  have := (List.getElem?_eq_some_iff.1 ‹p.nodes[c]? = some _›).1
  omega

/-- The records that rows create at a node below a holder, in order, each with the key that its
first row has. -/
def created (p : HydrationPlan) (rows : List Row) (i : Nat) (holder : KeyPath) : List Entry :=
  (p.groups rows i holder).map fun g =>
    ⟨i, p.nodes[i]?.bind fun n => n.keyIn g.row, p.nested rows i g⟩

/-- The collection of these records. -/
def collected (p : HydrationPlan) (rows : List Row) (i : Nat) (holder : KeyPath) : Collection :=
  match p.nodes[i]? with
  | none => ⟨"", none, []⟩
  | some n => Collection.ofEntries n (p.created rows i holder)

/-- The record of a group at a node, when no collection has keys. -/
def grouped (p : HydrationPlan) (rows : List Row) (i : Nat) (g : Sighting) : Record :=
  match p.nodes[i]? with
  | none => ⟨"", [], []⟩
  | some n => ⟨n.component, n.dataOf g.row, n.children.filterMap fun c =>
      match _ : p.nodes[c]? with
      | none => none
      | some m =>
        if _ : i < c then
          some (m.slotName, m.related ((p.groups rows c g.path).map (p.grouped rows c)))
        else none⟩
termination_by p.nodes.length - i
decreasing_by
  have := (List.getElem?_eq_some_iff.1 ‹p.nodes[c]? = some _›).1
  omega

/-- The collection of the records of the root. -/
def grouping (p : HydrationPlan) (rows : List Row) : Collection :=
  ⟨(p.root?.map (·.component)).getD "", none, (p.groups rows 0 []).map (p.grouped rows 0)⟩

end HydrationPlan
end ObjectQuery
