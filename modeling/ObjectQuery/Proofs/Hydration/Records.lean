import ObjectQuery.Proofs.Hydration.Growth

/-! # Records of a grown forest

A forest that shows the first sightings of the records of rows is read as the groups of these rows,
nested.

* `Grown.heldBy_filter`: what a record holds at one node is a list of groups;
* `Branch.entry_eq`, `Branch.entries_eq`: the records of branches are those of the groups;
* `Hydrator.finish_grouping`: hydration is nested grouping. -/

namespace ObjectQuery

variable {p : HydrationPlan} {n : HydrationNode} {row : Row} {rows : List Row} {number i : Nat}
  {S : List Sighting} {forest : List Branch} {path π : KeyPath} {s : Sighting}

/-! ## Sightings by node -/

theorem HydrationPlan.step_keyPath (h : p.keyPath row number i = some path) :
    (Sighting.step ⟨path, row⟩).1 = i := by
  obtain ⟨n, π, identity, -, rfl, -⟩ := keyPath_spec h
  rw [Sighting.step_mk]

theorem HydrationPlan.shown_filter (positions : List Nat) :
    (p.shown row number positions).filter (fun s => s.step.1 = i) =
      p.shown row number (positions.filter fun j => j = i) := by
  rw [shown, shown, List.filter_filterMap, List.filterMap_filter]
  congr 1
  funext j
  cases hpath : p.keyPath row number j with
  | none => simp
  | some path => simp [Option.filter, step_keyPath hpath]

/-- The sightings at one node among all sightings. -/
theorem HydrationPlan.allShown_filter (hi : i < p.nodes.length) :
    (p.allShown rows 0).filter (fun s => s.step.1 = i) = p.sightings rows i := by
  have hposition : (List.range p.nodes.length).filter (fun j => j = i) = [i] := by
    have := List.filter_beq (l := List.range p.nodes.length) i
    rwa [List.count_eq_one_of_mem List.nodup_range (List.mem_range.2 hi)] at this
  rw [allShown, sightings, List.filter_flatMap, List.filterMap_eq_flatMap_toList]
  congr 1
  funext r
  rw [shown_filter, hposition, shown]
  cases hpath : p.keyPath r.1 r.2 i <;> simp [hpath]

/-- The records of one node among all records. -/
theorem HydrationPlan.firsts_filter_step (hi : i < p.nodes.length) :
    (Sighting.firsts (p.allShown rows 0)).filter (fun s => s.step.1 = i) =
      Sighting.firsts (p.sightings rows i) := by
  rw [← allShown_filter hi]
  exact Sighting.firsts_filter (fun path => (path.getLastD (0, [])).1 = i) _

/-- The records that a record holds at one node. -/
theorem HydrationPlan.heldBy_filter (hi : i < p.nodes.length) (π : KeyPath) :
    (Sighting.heldBy (p.allShown rows 0) π).filter (fun s => s.step.1 = i) = p.groups rows i π := by
  rw [groups, ← firsts_filter_step hi, Sighting.heldBy, List.filter_comm]

/-- Records that nothing holds are records of the root. -/
theorem HydrationPlan.IsTree.heldBy_nil (ht : p.IsTree) :
    Sighting.heldBy (p.allShown rows 0) [] = p.groups rows 0 [] := by
  obtain ⟨root, hroot, -⟩ := ht.root
  rw [← heldBy_filter (List.getElem?_eq_some_iff.1 hroot).1, eq_comm, List.filter_eq_self]
  intro s hs
  obtain ⟨hs, hholder⟩ := List.mem_filter.1 hs
  obtain ⟨r, -, hs⟩ := List.mem_flatMap.1 (Sighting.mem_of_mem_firsts hs)
  obtain ⟨i, -, hs⟩ := List.mem_filterMap.1 hs
  obtain ⟨path, hpath, rfl⟩ := Option.map_eq_some_iff.1 hs
  obtain ⟨n, π, identity, hn, rfl, hparent⟩ := keyPath_spec hpath
  rw [Sighting.holder_mk, decide_eq_true_iff] at hholder
  rw [Sighting.step_mk, decide_eq_true_iff]
  rcases hparent with ⟨hp, -⟩ | ⟨j, -, hpath⟩
  · rcases ht.parent_or hn with ⟨hi, -⟩ | ⟨j, -, hp'⟩
    · exact hi
    · cases hp.symm.trans hp'
  · obtain ⟨n, π', identity, -, he, -⟩ := keyPath_spec hpath
    simp [hholder] at he

/-! ## What a record holds -/

/-- Records without keys are listed in order. -/
theorem foldl_placeEntry (entries : List Entry) (hkeys : ∀ e ∈ entries, e.key = none)
    (placed : List String × List Record) :
    entries.foldl placeEntry placed = (placed.1, placed.2 ++ entries.map (·.record)) := by
  induction entries generalizing placed with
  | nil => simp
  | cons e entries ih =>
    rw [List.foldl_cons, placeEntry, hkeys e List.mem_cons_self,
      ih fun e he => hkeys e (List.mem_cons_of_mem _ he)]
    simp

theorem Collection.ofEntries_eq (hindex : n.indexBy = none) (entries : List Entry)
    (hkeys : ∀ e ∈ entries, e.key = none) :
    Collection.ofEntries n entries = ⟨n.component, none, entries.map (·.record)⟩ := by
  rw [ofEntries, foldl_placeEntry entries hkeys, hindex]
  rfl

theorem Related.ofEntries_eq (hindex : n.indexBy = none) (entries : List Entry)
    (hkeys : ∀ e ∈ entries, e.key = none) :
    Related.ofEntries n entries = n.related (entries.map (·.record)) := by
  rw [ofEntries, HydrationNode.related, Collection.ofEntries_eq hindex entries hkeys,
    List.getLast?_map]

theorem slotsOf_eq {entries : List Entry} {listed cs : List Nat} (hnodup : cs.Nodup)
    (hlisted : ∀ c ∈ cs, c ∉ listed) : slotsOf p entries listed cs = cs.filterMap fun c =>
      p.nodes[c]?.map fun n =>
        (n.slotName, Related.ofEntries n (entries.filter fun e => e.node == c)) := by
  induction cs generalizing listed with
  | nil => rfl
  | cons c cs ih =>
    obtain ⟨hc, hnodup⟩ := List.nodup_cons.1 hnodup
    have hrest : ∀ d ∈ cs, d ∉ c :: listed := by
      intro d hd
      rw [List.mem_cons, not_or]
      exact ⟨fun he => hc (he ▸ hd), hlisted d (List.mem_cons_of_mem _ hd)⟩
    rw [slotsOf, List.filterMap_cons, ih hnodup hrest]
    cases p.nodes[c]? with
    | none => rfl
    | some n => simp [hlisted c List.mem_cons_self]

/-- In a tree every child of a node comes after it. -/
theorem HydrationPlan.IsTree.lt_child (ht : p.IsTree) (hn : p.nodes[i]? = some n) {c : Nat}
    (hc : c ∈ n.children) : i < c ∧ ∃ m, p.nodes[c]? = some m := by
  obtain ⟨m, hm, hp⟩ := (ht.children i n hn c).1 hc
  refine ⟨?_, m, hm⟩
  rcases ht.parent_or hm with ⟨-, hp'⟩ | ⟨j, hj, hp'⟩
  · cases hp.symm.trans hp'
  · cases hp.symm.trans hp'
    exact hj

/-- The record of a group holds, at every child of its node, the records of the groups that go on
from it. -/
theorem HydrationPlan.IsTree.grouped_eq (ht : p.IsTree) (hn : p.nodes[i]? = some n) (g : Sighting) :
    p.grouped rows i g = ⟨n.component, n.dataOf g.row, n.children.filterMap fun c =>
      p.nodes[c]?.map fun m =>
        (m.slotName, m.related ((p.groups rows c g.path).map (p.grouped rows c)))⟩ := by
  rw [HydrationPlan.grouped]
  split
  · rename_i hn'
    cases hn.symm.trans hn'
  · rename_i m hm
    cases hn.symm.trans hm
    congr 1
    refine List.filterMap_congr fun c hc => ?_
    split
    · rename_i hc'
      rw [hc']; rfl
    · rename_i m' hm'
      rw [hm', dif_pos (ht.lt_child hn hc).1]; rfl

/-- The record of a group holds, at every child of its node, what is created there below it. -/
theorem HydrationPlan.IsTree.nested_eq (ht : p.IsTree) (hn : p.nodes[i]? = some n) (g : Sighting) :
    p.nested rows i g = ⟨n.component, n.dataOf g.row, n.children.filterMap fun c =>
      p.nodes[c]?.map fun m => (m.slotName, Related.ofEntries m (p.created rows c g.path))⟩ := by
  rw [HydrationPlan.nested]
  split
  · rename_i hn'
    cases hn.symm.trans hn'
  · rename_i m hm
    cases hn.symm.trans hm
    congr 1
    refine List.filterMap_congr fun c hc => ?_
    split
    · rename_i hc'
      rw [hc']; rfl
    · rename_i m' hm'
      rw [hm', dif_pos (ht.lt_child hn hc).1, HydrationPlan.created, hm']; rfl

/-! ## Records of branches -/

/-- A forest shows the sightings of the records below a key path. -/
structure Shows (p : HydrationPlan) (S : List Sighting) (π : KeyPath) (forest : List Branch) :
    Prop where
  labels : ∀ path, Branch.labelsAt path forest =
    if π ++ path ∈ [] :: S.map (·.path) then some ((Sighting.heldBy S (π ++ path)).map p.label)
    else none

/-- Records of one holder differ in their last step. -/
theorem Sighting.nodup_steps (hne : ∀ s ∈ S, s.path ≠ []) (π : KeyPath) :
    ((heldBy S π).map step).Nodup := by
  have hpaths : (heldBy S π).map (·.path) = ((heldBy S π).map step).map fun t => π ++ [t] := by
    rw [List.map_map]
    refine List.map_congr_left fun s hs => ?_
    obtain ⟨hs, hholder⟩ := List.mem_filter.1 hs
    rw [path_eq (hne s (mem_of_mem_firsts hs)), of_decide_eq_true hholder]; rfl
  have hnodup : ((heldBy S π).map (·.path)).Nodup :=
    (List.filter_sublist.map _).nodup (nodup_firsts S)
  rw [hpaths] at hnodup
  exact hnodup.of_map

theorem Shows.map_label (h : Shows p S π forest) (hπ : π ∈ [] :: S.map (·.path)) :
    forest.map Branch.label = (Sighting.heldBy S π).map p.label := by
  have := h.labels []
  rw [List.append_nil, if_pos hπ] at this
  exact Option.some.inj this

/-- What stands below the branch of a record shows the records below this record. -/
theorem Shows.children (h : Shows p S π forest) (hne : ∀ s ∈ S, s.path ≠ [])
    (hπ : π ∈ [] :: S.map (·.path)) {b : Branch} (hb : b ∈ forest) (hs : s ∈ Sighting.heldBy S π)
    (hstep : b.step = s.step) : Shows p S s.path b.children := by
  have hsteps : forest.map Branch.step = (Sighting.heldBy S π).map (·.step) :=
    Branch.map_step_of_map_label (h.map_label hπ)
  obtain ⟨hs, hholder⟩ := List.mem_filter.1 hs
  have hpath : s.path = π ++ [b.step] := by
    rw [Sighting.path_eq (hne s (Sighting.mem_of_mem_firsts hs)), of_decide_eq_true hholder, hstep]
  constructor
  intro path
  rw [← Branch.labelsAt_cons (hsteps ▸ Sighting.nodup_steps hne π) hb, h.labels, hpath,
    List.append_assoc, List.singleton_append]

/-- The record of a group, with its node and its key. -/
def HydrationPlan.groupEntry (p : HydrationPlan) (rows : List Row) (g : Sighting) : Entry :=
  ⟨g.step.1, p.nodes[g.step.1]?.bind fun n => n.keyIn g.row, p.nested rows g.step.1 g⟩

theorem HydrationPlan.map_groupEntry {ss : List Sighting} (h : ∀ s ∈ ss, s.step.1 = i) :
    ss.map (p.groupEntry rows) =
      ss.map fun g => ⟨i, p.nodes[i]?.bind fun n => n.keyIn g.row, p.nested rows i g⟩ := by
  refine List.map_congr_left fun s hs => ?_
  rw [groupEntry, h s hs]

/-- Of all records that a record holds, those at one node are the records of its groups there. -/
theorem HydrationPlan.groupEntry_filter (hi : i < p.nodes.length) (π : KeyPath) :
    ((Sighting.heldBy (p.allShown rows 0) π).map (p.groupEntry rows)).filter
      (fun e => e.node == i) = p.created rows i π := by
  rw [List.filter_map, created, ← heldBy_filter hi]
  exact map_groupEntry fun s hs => eq_of_beq (List.mem_filter.1 hs).2

mutual

/-- The record of a branch that shows a sighting is that of its group. -/
theorem Branch.entry_eq (ht : p.IsTree)
    (hS : Grown p (p.allShown rows 0) forest) : ∀ (b : Branch) (s : Sighting),
    s ∈ Sighting.firsts (p.allShown rows 0) → b.label = p.label s →
    Shows p (p.allShown rows 0) s.path b.children → b.entry p = p.groupEntry rows s
  | ⟨node, identity, key, data, children⟩, s, hs, hlabel, hshows => by
    obtain ⟨n, -, hn, -⟩ := hS.read s hs
    have hpath : s.path ∈ [] :: (p.allShown rows 0).map (·.path) :=
      List.mem_cons_of_mem _ (List.mem_map_of_mem (Sighting.mem_of_mem_firsts hs))
    have hbelow := Branch.entries_eq ht hS children (Sighting.heldBy (p.allShown rows 0) s.path)
      (fun t ht => (List.mem_filter.1 ht).1) (hshows.map_label hpath)
      fun b hb t ht => hshows.children hS.nonempty hpath hb ht
    obtain ⟨hstep, hrest⟩ := Prod.mk.inj hlabel
    obtain ⟨rfl, rfl⟩ := Prod.mk.inj hrest
    obtain rfl : node = s.step.1 := congrArg Prod.fst hstep
    rw [Branch.entry, HydrationPlan.groupEntry, recordAt, ht.nested_eq hn, hbelow, hn]
    dsimp only [Option.bind_some]
    rw [slotsOf_eq (ht.nodup n (List.mem_of_getElem? hn)) fun c _ => List.not_mem_nil]
    congr 2
    refine List.filterMap_congr fun c hc => ?_
    obtain ⟨-, m, hm⟩ := ht.lt_child hn hc
    rw [hm, Option.map_some, Option.map_some,
      HydrationPlan.groupEntry_filter (List.getElem?_eq_some_iff.1 hm).1]

/-- The records of branches that show sightings, one by one. -/
theorem Branch.entries_eq (ht : p.IsTree)
    (hS : Grown p (p.allShown rows 0) forest) : ∀ (bs : List Branch) (ss : List Sighting),
    (∀ s ∈ ss, s ∈ Sighting.firsts (p.allShown rows 0)) → bs.map Branch.label = ss.map p.label →
    (∀ b ∈ bs, ∀ s ∈ ss, b.step = s.step → Shows p (p.allShown rows 0) s.path b.children) →
    Branch.entries p bs = ss.map (p.groupEntry rows)
  | [], [], _, _, _ => rfl
  | b :: bs, s :: ss, hs, hlabel, hshows => by
    obtain ⟨hb, hbs⟩ := List.cons.inj hlabel
    rw [Branch.entries, List.map_cons,
      Branch.entry_eq ht hS b s (hs s List.mem_cons_self) hb
        (hshows b List.mem_cons_self s List.mem_cons_self (congrArg Prod.fst hb)),
      Branch.entries_eq ht hS bs ss (fun t ht => hs t (List.mem_cons_of_mem _ ht)) hbs
        fun c hc t ht => hshows c (List.mem_cons_of_mem _ hc) t (List.mem_cons_of_mem _ ht)]

end

/-! ## All rows -/

/-- Every record of rows is held by the record that the same row shows at the parent. -/
theorem HydrationPlan.holder_mem (hn : p.nodes[i]? = some n) (hs : s ∈ p.sightings rows i) {j : Nat}
    (hj : n.parent = some j) : ∃ t ∈ p.sightings rows j, s.holder = t.path := by
  obtain ⟨r, hr, hs⟩ := List.mem_filterMap.1 hs
  obtain ⟨path, hpath, rfl⟩ := Option.map_eq_some_iff.1 hs
  obtain ⟨m, π, identity, hm, rfl, hparent⟩ := keyPath_spec hpath
  cases hn.symm.trans hm
  rcases hparent with ⟨hp, -⟩ | ⟨k, hp, hπ⟩
  · cases hj.symm.trans hp
  · cases hj.symm.trans hp
    exact ⟨⟨π, r.1⟩, List.mem_filterMap.2 ⟨r, hr, by rw [hπ]; rfl⟩, Sighting.holder_mk _ _ _⟩

theorem HydrationPlan.step_of_mem_sightings (hs : s ∈ p.sightings rows i) : s.step.1 = i := by
  obtain ⟨r, -, hs⟩ := List.mem_filterMap.1 hs
  obtain ⟨path, hpath, rfl⟩ := Option.map_eq_some_iff.1 hs
  exact step_keyPath hpath

/-- The roots of a forest that shows the records of rows are the groups of these rows. -/
theorem Grown.rootCollection_eq (ht : p.IsTree) (hS : Grown p (p.allShown rows 0) forest) :
    rootCollection p forest = p.collected rows 0 [] := by
  obtain ⟨root, hroot, -⟩ := ht.root
  have hroot' : p.root? = some root := by
    rw [HydrationPlan.root?, List.head?_eq_getElem?, hroot]
  have hshows : Shows p (p.allShown rows 0) [] forest := ⟨hS.labels⟩
  have hentries : Branch.entries p forest = p.created rows 0 [] := by
    rw [HydrationPlan.created, ← HydrationPlan.map_groupEntry, ← ht.heldBy_nil]
    · exact Branch.entries_eq ht hS _ _ (fun s hs => (List.mem_filter.1 hs).1)
        (hshows.map_label List.mem_cons_self) fun b hb s hs =>
          hshows.children hS.nonempty List.mem_cons_self hb hs
    · exact fun s hs =>
        p.step_of_mem_sightings (Sighting.mem_of_mem_firsts (List.mem_filter.1 hs).1)
  rw [rootCollection, hroot', hentries, HydrationPlan.collected, hroot]

/-! ## Records without keys -/

theorem HydrationPlan.isSome_key_created (hn : p.nodes[i]? = some n) :
    ∀ e ∈ p.created rows i π, e.key.isSome = n.indexBy.isSome := by
  intro e he
  obtain ⟨g, -, rfl⟩ := List.mem_map.1 he
  rw [hn, Option.bind_some, HydrationNode.keyIn, Option.isSome_map]

section
variable (hindex : ∀ n ∈ p.nodes, n.indexBy = none)
include hindex

theorem HydrationPlan.key_created (hn : p.nodes[i]? = some n) :
    ∀ e ∈ p.created rows i π, e.key = none := by
  intro e he
  have hkey := isSome_key_created hn e he
  rw [hindex n (List.mem_of_getElem? hn)] at hkey
  exact Option.isSome_eq_false_iff.1 hkey |> Option.isNone_iff_eq_none.1

/-- When no collection has keys, all records stay in their collections. -/
theorem HydrationPlan.IsTree.nested_eq_grouped (ht : p.IsTree) (i : Nat) (g : Sighting) :
    p.nested rows i g = p.grouped rows i g := by
  cases hn : p.nodes[i]? with
  | none => rw [HydrationPlan.nested, HydrationPlan.grouped, hn]
  | some n =>
    rw [ht.nested_eq hn, ht.grouped_eq hn]
    congr 1
    refine List.filterMap_congr fun c hc => ?_
    obtain ⟨hlt, m, hm⟩ := ht.lt_child hn hc
    have hrecords : (p.created rows c g.path).map (·.record) =
        (p.groups rows c g.path).map (p.grouped rows c) := by
      rw [HydrationPlan.created, List.map_map]
      exact List.map_congr_left fun g' _ => ht.nested_eq_grouped c g'
    rw [hm, Option.map_some, Option.map_some, Related.ofEntries_eq
      (hindex m (List.mem_of_getElem? hm)) _ (HydrationPlan.key_created hindex hm), hrecords]
termination_by p.nodes.length - i
decreasing_by
  have := (List.getElem?_eq_some_iff.1 hm).1
  omega

theorem HydrationPlan.IsTree.collected_eq_grouping (ht : p.IsTree) :
    p.collected rows 0 [] = p.grouping rows := by
  obtain ⟨root, hroot, -⟩ := ht.root
  have hroot' : p.root? = some root := by
    rw [HydrationPlan.root?, List.head?_eq_getElem?, hroot]
  have hrecords : (p.created rows 0 []).map (·.record) =
      (p.groups rows 0 []).map (p.grouped rows 0) := by
    rw [HydrationPlan.created, List.map_map]
    exact List.map_congr_left fun g _ => ht.nested_eq_grouped hindex 0 g
  rw [HydrationPlan.collected, hroot, HydrationPlan.grouping, hroot']
  dsimp only
  rw [Collection.ofEntries_eq (hindex root (List.mem_of_getElem? hroot)) _
    (HydrationPlan.key_created hindex hroot), hrecords]
  rfl

end

/-! ## Hydration -/

/-- Rows that lack no column are hydrated to their groups, nested: at every node each key path that
occurs in the rows makes one record, with the data of its first row, held by the record of the path
before its last step; the records of a holder come in order of first occurrence, and a relation to
one holds the last of them. The first rows have the data, and the holders are among the records. -/
theorem Hydrator.finish_grouping {hydrator : Hydrator} (ht : p.IsTree)
    (hindex : ∀ n ∈ p.nodes, n.indexBy = none)
    (h : (Hydrator.new p .record).pushAll rows = .ok hydrator) :
    hydrator.finish = .records (p.grouping rows) ∧
      ∀ (i : Nat) n, p.nodes[i]? = some n → ∀ g ∈ Sighting.firsts (p.sightings rows i),
        (∃ values, n.readAll g.row n.bindings = .ok values) ∧
        ∀ j, n.parent = some j → ∃ g' ∈ Sighting.firsts (p.sightings rows j), g.holder = g'.path := by
  obtain ⟨hplan, hmode, hgrown⟩ := pushAll_grown (p := p) rfl rfl ht (Grown.empty p) h
  refine ⟨?_, fun i n hn g hg => ⟨?_, fun j hj => ?_⟩⟩
  · rw [finish, hmode, hplan]
    dsimp only
    rw [hgrown.rootCollection_eq ht, ht.collected_eq_grouping hindex]
  · have hstep := p.step_of_mem_sightings (Sighting.mem_of_mem_firsts hg)
    rw [← HydrationPlan.firsts_filter_step (List.getElem?_eq_some_iff.1 hn).1] at hg
    obtain ⟨m, values, hm, hread⟩ := hgrown.read g (List.mem_filter.1 hg).1
    rw [hstep, hn] at hm
    cases hm
    exact ⟨values, hread⟩
  · obtain ⟨t, ht, hholder⟩ := HydrationPlan.holder_mem hn (Sighting.mem_of_mem_firsts hg) hj
    obtain ⟨g', hg', hpath⟩ := List.mem_map.1
      ((Sighting.mem_paths_firsts t.path).2 (List.mem_map_of_mem ht))
    exact ⟨g', hg', hholder.trans hpath.symm⟩

namespace Hydrator.Sample

/-- Users with their phones. -/
def users : HydrationPlan where
  nodes := [
    { userAlias := "u", sqlAlias := "u", component := "User", parent := none, relation := none
      kind := none, identifier := [⟨"id", "u_id"⟩], fields := [⟨"id", "u_id"⟩, ⟨"name", "u_name"⟩]
      aggregates := [], indexBy := none, children := [1] },
    { userAlias := "p", sqlAlias := "p", component := "Phone", parent := some 0
      relation := some "phones", kind := some .oneToMany, identifier := [⟨"id", "p_id"⟩]
      fields := [⟨"id", "p_id"⟩], aggregates := [], indexBy := none, children := [] }]

/-- The first user comes back after the second. -/
def phoneRows : List Row :=
  [[("u_id", .int 1), ("u_name", .string "ann"), ("p_id", .int 7)],
    [("u_id", .int 2), ("u_name", .string "bob"), ("p_id", .null)],
    [("u_id", .int 1), ("u_name", .string "ann"), ("p_id", .int 8)]]

theorem users_isTree : users.IsTree where
  root := ⟨_, rfl, rfl⟩
  parent
    | 0, _, _, h => absurd rfl h
    | 1, _, hn, _ => ⟨0, Nat.one_pos, by cases hn; rfl⟩
  children := by
    intro i n hn c
    match i with
    | 0 =>
      cases hn
      match c with
      | 0 => simp [users]
      | 1 => simp [users]
      | c + 2 => simp [users]
    | 1 =>
      cases hn
      match c with
      | 0 => simp [users]
      | 1 => simp [users]
      | c + 2 => simp [users]
  nodup := by decide

end Hydrator.Sample

theorem Hydrator.finish_grouping_sample : ∃ hydrator,
    (Hydrator.new Sample.users .record).pushAll Sample.phoneRows = .ok hydrator ∧
      hydrator.finish = .records (Sample.users.grouping Sample.phoneRows) := by
  obtain ⟨hydrator, h⟩ := Except.exists_eq_ok
    (x := (Hydrator.new Sample.users .record).pushAll Sample.phoneRows) (by decide +kernel)
  exact ⟨hydrator, h, (finish_grouping Sample.users_isTree (by decide) h).1⟩

end ObjectQuery
