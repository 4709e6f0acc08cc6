import ObjectQuery.Proofs.Hydration.Objects
import ObjectQuery.Proofs.Hydration.Records

/-! # Indexed collections

Where a node has an index, the collections of its records have keys: every key stands once, where it
came first, and over the last record that was made under it. A record that gave way to a later one is
not made again by a row that shows it, and what such a row adds below it is not seen.

* `Collection.Indexes`: the collection that entries amount to;
* `Collection.ofEntries_indexes`: entries are placed into such a collection;
* `HydrationPlan.IsTree.reaches_nested`: the records of a result are those of groups;
* `HydrationPlan.IsTree.hydrate_indexes`: all collections of a result. -/

namespace ObjectQuery

variable {p : HydrationPlan} {n : HydrationNode} {rows : List Row} {i : Nat} {π : KeyPath}
  {r : Record} {c : Collection} {entries : List Entry} {placed : List String × List Record}
  {key key' : String} {name : String}

/-! ## Placing entries -/

/-- The record that stands under a key. -/
def recordUnder (placed : List String × List Record) (key : String) : Option Record :=
  (placed.1.idxOf? key).bind fun position => placed.2[position]?

theorem recordUnder_set {keys : List String} {records : List Record} {position : Nat}
    (hlength : keys.length = records.length) (hposition : keys.idxOf? key = some position) :
    recordUnder (keys, records.set position r) key' =
      if key = key' then some r else recordUnder (keys, records) key' := by
  obtain ⟨hlt, hat, -⟩ := List.idxOf?_eq_some_iff.1 hposition
  dsimp only [recordUnder]
  by_cases he : key = key'
  · subst he
    rw [if_pos rfl, hposition, Option.bind_some, List.getElem?_set_self (hlength ▸ hlt)]
  · rw [if_neg he]
    cases hother : keys.idxOf? key' with
    | none => rfl
    | some other =>
      obtain ⟨hlt', hat', -⟩ := List.idxOf?_eq_some_iff.1 hother
      have hne : position ≠ other := by
        rintro rfl
        exact he (hat.symm.trans hat')
      rw [Option.bind_some, Option.bind_some, List.getElem?_set_ne hne]

theorem recordUnder_concat {keys : List String} {records : List Record}
    (hlength : keys.length = records.length) (hnew : key ∉ keys) :
    recordUnder (keys ++ [key], records ++ [r]) key' =
      if key = key' then some r else recordUnder (keys, records) key' := by
  have happend : (keys ++ [key]).idxOf? key' =
      (keys.idxOf? key').or (([key].idxOf? key').map (· + keys.length)) := by
    simp only [List.idxOf?, List.findIdx?_append]
  dsimp only [recordUnder]
  rw [happend]
  cases hother : keys.idxOf? key' with
  | none =>
    by_cases he : key = key'
    · simp [he, hlength]
    · simp [he]
  | some other =>
    obtain ⟨hlt, hat, -⟩ := List.idxOf?_eq_some_iff.1 hother
    have he : key ≠ key' := fun he => hnew (he ▸ hat ▸ List.getElem_mem hlt)
    rw [if_neg he, Option.some_or, Option.bind_some, Option.bind_some,
      List.getElem?_append_left (hlength ▸ hlt)]

/-- An entry is the one that stands under its key from then on; under other keys nothing changes. -/
theorem recordUnder_placeEntry {e : Entry} (hkey : e.key = some key)
    (hlength : placed.1.length = placed.2.length) :
    recordUnder (placeEntry placed e) key' =
      if key = key' then some e.record else recordUnder placed key' := by
  rw [placeEntry, hkey]
  dsimp only
  split
  · exact recordUnder_set hlength ‹_›
  · exact recordUnder_concat hlength (List.idxOf?_eq_none_iff.1 ‹_›)

/-- A key is added when it is new. -/
theorem fst_placeEntry {e : Entry} (hkey : e.key = some key) :
    (placeEntry placed e).1 = if key ∈ placed.1 then placed.1 else placed.1 ++ [key] := by
  rw [placeEntry, hkey]
  dsimp only
  split
  · rename_i hposition
    rw [if_pos (List.isSome_idxOf?.1 (Option.isSome_iff_exists.2 ⟨_, hposition⟩))]
  · rename_i hposition
    rw [if_neg (List.idxOf?_eq_none_iff.1 hposition)]

theorem eraseDups_concat (keys : List String) (key : String) : (keys ++ [key]).eraseDups =
    if key ∈ keys.eraseDups then keys.eraseDups else keys.eraseDups ++ [key] := by
  simp only [List.eraseDups_append, List.mem_eraseDups]
  split
  · rename_i hmem
    simp [List.removeAll, hmem]
  · rename_i hmem
    simp [List.removeAll, hmem, List.eraseDups_cons]

/-- The keys of entries, each where it comes first. -/
def keysOf (entries : List Entry) : List String := (entries.filterMap (·.key)).eraseDups

/-- The last of the entries that have the key. -/
def lastUnder (entries : List Entry) (key : String) : Option Record :=
  (entries.filter fun e => e.key == some key).getLast?.map (·.record)

theorem foldl_placeEntry_eq (h : ∀ e ∈ entries, e.key.isSome = true) :
    (entries.foldl placeEntry ([], [])).1 = keysOf entries ∧
      ∀ key, recordUnder (entries.foldl placeEntry ([], [])) key = lastUnder entries key := by
  induction entries using List.reverseRecOn with
  | nil => exact ⟨rfl, fun key => rfl⟩
  | append_singleton entries e ih =>
    have hbefore : ∀ e ∈ entries, e.key.isSome = true :=
      fun e he => h e (List.mem_append_left _ he)
    obtain ⟨key, hkey⟩ := Option.isSome_iff_exists.1 (h e List.mem_concat_self)
    obtain ⟨hkeys, hunder⟩ := ih hbefore
    have hlength : (entries.foldl placeEntry ([], [])).1.length =
        (entries.foldl placeEntry ([], [])).2.length :=
      (foldl_placeEntry_keyed hbefore ⟨List.nodup_nil, rfl⟩).2
    rw [List.foldl_concat]
    constructor
    · rw [fst_placeEntry hkey, hkeys, keysOf, keysOf, List.filterMap_append, ← eraseDups_concat]
      simp [hkey]
    · intro key'
      rw [recordUnder_placeEntry hkey hlength, hunder, lastUnder, lastUnder, List.filter_append]
      split
      · rename_i he
        simp [hkey, he]
      · rename_i he
        simp [hkey, he]

/-! ## Indexed collections -/

/-- Where no key stands twice, the object of a collection has an entry for every record. -/
theorem Collection.WellKeyed.toValue_eq {keys : List String} (hc : c.WellKeyed)
    (h : c.keys = some keys) : c.toValue = .object (keys.zip (c.records.map (·.toValue))) := by
  obtain ⟨hnodup, hlength⟩ := hc keys h
  obtain ⟨component, _, records⟩ := c
  cases h
  have hnames : Fields.names (keys.zip (records.map (·.toValue))) = keys :=
    List.map_fst_zip (by rw [List.length_map]; exact hlength.le)
  rw [toValue, Record.values_eq, Fields.ofPairs_eq, Fields.putAll_of_nodup (by rwa [hnames])]
  rfl

/-- A collection as a value has as many entries or items as there are records. -/
theorem Collection.WellKeyed.size_toValue (hc : c.WellKeyed) :
    (HydratedResult.array c.toValue).size = c.size := by
  cases hkeys : c.keys with
  | none =>
    obtain ⟨component, _, records⟩ := c
    cases hkeys
    rw [Collection.toValue, HydratedResult.size, Record.values_eq, List.length_map]
    rfl
  | some keys =>
    rw [hc.toValue_eq hkeys, HydratedResult.size, List.length_zip, List.length_map,
      (hc keys hkeys).2, min_self]
    rfl

/-- The collection has the keys of the entries, each once and where it came first, and under every key
the last entry that has it. As a value it is the object with these entries. -/
structure Collection.Indexes (c : Collection) (entries : List Entry) : Prop where
  keys : c.keys = some (keysOf entries)
  nodup : (keysOf entries).Nodup
  length : (keysOf entries).length = c.records.length
  get? : ∀ key, c.get? key = lastUnder entries key
  toValue : c.toValue = .object ((keysOf entries).zip (c.records.map (·.toValue)))

theorem Collection.ofEntries_indexes (hindex : n.indexBy.isSome = true)
    (h : ∀ e ∈ entries, e.key.isSome = true) : (ofEntries n entries).Indexes entries := by
  obtain ⟨hkeys, hunder⟩ := foldl_placeEntry_eq h
  have hsome : (ofEntries n entries).keys = some (keysOf entries) := by
    rw [ofEntries, hindex, ← hkeys]
    rfl
  have hkeyed : (ofEntries n entries).WellKeyed :=
    wellKeyed_ofEntries fun e he => (h e he).trans hindex.symm
  obtain ⟨hnodup, hlength⟩ := hkeyed _ hsome
  refine ⟨hsome, hnodup, hlength, fun key => ?_, hkeyed.toValue_eq hsome⟩
  rw [← hunder, ofEntries, hindex]
  rfl

/-! ## Records of groups -/

theorem HydrationPlan.exists_of_mem_created {e : Entry} (he : e ∈ p.created rows i π) :
    ∃ g ∈ Sighting.firsts (p.sightings rows i), e.record = p.nested rows i g := by
  obtain ⟨g, hg, rfl⟩ := List.mem_map.1 he
  exact ⟨g, (List.mem_filter.1 hg).1, rfl⟩

section
variable (ht : p.IsTree)
include ht

/-- What the record of a group holds is created at a child of its node. -/
theorem HydrationPlan.IsTree.mem_relations_nested (hn : p.nodes[i]? = some n) {g : Sighting}
    {related : Related} (h : (name, related) ∈ (p.nested rows i g).relations) :
    ∃ j m, p.nodes[j]? = some m ∧ m.parent = some i ∧ name = m.slotName ∧
      related = Related.ofEntries m (p.created rows j g.path) := by
  rw [ht.nested_eq hn] at h
  obtain ⟨j, hj, h⟩ := List.mem_filterMap.1 h
  obtain ⟨m, hm, he⟩ := Option.map_eq_some_iff.1 h
  obtain ⟨m', hm', hparent⟩ := (ht.children i n hn j).1 hj
  cases hm.symm.trans hm'
  obtain ⟨rfl, rfl⟩ := Prod.mk.inj he
  exact ⟨j, m, hm, hparent, rfl, rfl⟩

/-- The records of a result, at any depth, are those of groups. -/
theorem HydrationPlan.IsTree.reaches_nested (h : (p.collected rows 0 []).Reaches r) :
    ∃ i n g, p.nodes[i]? = some n ∧ g ∈ Sighting.firsts (p.sightings rows i) ∧
      r = p.nested rows i g := by
  have hcreated {i : Nat} {n : HydrationNode} {π : KeyPath} {r : Record}
      (hn : p.nodes[i]? = some n) (h : ∃ e ∈ p.created rows i π, e.record = r) :
      ∃ i n g, p.nodes[i]? = some n ∧ g ∈ Sighting.firsts (p.sightings rows i) ∧
        r = p.nested rows i g := by
    obtain ⟨e, he, rfl⟩ := h
    obtain ⟨g, hg, hrecord⟩ := exists_of_mem_created he
    exact ⟨i, n, g, hn, hg, hrecord⟩
  induction h with
  | top hr =>
    obtain ⟨root, hroot, -⟩ := ht.root
    rw [collected, hroot] at hr
    exact hcreated hroot (Collection.mem_records_ofEntries hr)
  | one _ hr ih =>
    obtain ⟨i, n, g, hn, -, rfl⟩ := ih
    obtain ⟨j, m, hm, -, -, hrelated⟩ := ht.mem_relations_nested hn hr
    exact hcreated hm (Related.ofEntries_eq_one hrelated.symm)
  | many _ hheld hr ih =>
    obtain ⟨i, n, g, hn, -, rfl⟩ := ih
    obtain ⟨j, m, hm, -, -, hrelated⟩ := ht.mem_relations_nested hn hheld
    rw [Related.ofEntries_eq_many hrelated.symm] at hr
    exact hcreated hm (Collection.mem_records_ofEntries hr)

end

theorem HydrationPlan.collected_indexes (hn : p.nodes[i]? = some n)
    (hindex : n.indexBy.isSome = true) (π : KeyPath) :
    (p.collected rows i π).Indexes (p.created rows i π) := by
  rw [collected, hn]
  exact Collection.ofEntries_indexes hindex fun e he => (isSome_key_created hn e he).trans hindex

/-! ## All rows -/

/-- Rows that are all accepted become collections in which every key stands once. A collection of the
result is that of a node below the record of a group, or of the root. Where the node has an index, its
keys are those of the rows that created its records, each where it came first; under a key is the
record that was created last with it, and as a value the collection is the object of these records. The
result is of one size as records and as a nested value. -/
theorem HydrationPlan.IsTree.hydrate_indexes (ht : p.IsTree)
    (h : hydrate p .record rows = .ok (.records c)) :
    c = p.collected rows 0 [] ∧
    (∀ r, c.Reaches r → ∃ i n g, p.nodes[i]? = some n ∧
      g ∈ Sighting.firsts (p.sightings rows i) ∧ r = p.nested rows i g ∧ r.data = n.dataOf g.row ∧
      ∀ name held, (name, .many held) ∈ r.relations → ∃ j m, p.nodes[j]? = some m ∧
        m.parent = some i ∧ name = m.slotName ∧ held = p.collected rows j g.path) ∧
    (∀ (i : Nat) n output, p.nodes[i]? = some n → n.indexBy = some output →
      (∀ g ∈ Sighting.firsts (p.sightings rows i), ∃ v, g.row.get? output = some v ∧
        n.keyIn g.row = some (indexKey v)) ∧
      ∀ π, (p.collected rows i π).Indexes (p.created rows i π)) ∧
    hydrate p .array rows = .ok (.array c.toValue) ∧
    (HydratedResult.array c.toValue).size = (HydratedResult.records c).size := by
  obtain ⟨next, hnext, -, hc⟩ := exists_of_hydrate_records h
  obtain ⟨-, -, hgrown⟩ := Hydrator.pushAll_grown rfl rfl ht (Grown.empty p) hnext
  obtain rfl : p.collected rows 0 [] = c := (hgrown.rootCollection_eq ht).symm.trans hc
  refine ⟨rfl, fun r hr => ?_, fun i n output hn hindex => ⟨fun g hg => ?_, fun π => ?_⟩,
    (ht.hydrate_records h).1, ?_⟩
  · obtain ⟨i, n, g, hn, hg, rfl⟩ := ht.reaches_nested hr
    refine ⟨i, n, g, hn, hg, rfl, by rw [ht.nested_eq hn], fun name held hheld => ?_⟩
    obtain ⟨j, m, hm, hparent, hname, hrelated⟩ := ht.mem_relations_nested hn hheld
    refine ⟨j, m, hm, hparent, hname, ?_⟩
    rw [Related.ofEntries_eq_many hrelated.symm, collected, hm]
  · have hstep := p.step_of_mem_sightings (Sighting.mem_of_mem_firsts hg)
    rw [← firsts_filter_step (List.getElem?_eq_some_iff.1 hn).1] at hg
    obtain ⟨v, hv⟩ := hgrown.indexed g (List.mem_filter.1 hg).1 n (hstep ▸ hn) output hindex
    exact ⟨v, hv, by rw [HydrationNode.keyIn, hindex, Option.map_some, hv]; rfl⟩
  · exact collected_indexes hn (by rw [hindex]; rfl) π
  · obtain ⟨root, hroot, -⟩ := ht.root
    refine Collection.WellKeyed.size_toValue ?_
    rw [collected, hroot]
    exact Collection.wellKeyed_ofEntries (isSome_key_created hroot)

/-- Whether nodes form a tree does not depend on their indexes. -/
theorem HydrationPlan.IsTree.reindexed (ht : p.IsTree) (index : HydrationNode → Option String) :
    IsTree ⟨p.nodes.map fun n => { n with indexBy := index n }⟩ := by
  have hto {i : Nat} {n : HydrationNode} (hn : p.nodes[i]? = some n) :
      (p.nodes.map fun n => { n with indexBy := index n })[i]? =
        some { n with indexBy := index n } := by
    rw [List.getElem?_map, hn, Option.map_some]
  have hfrom {i : Nat} {m : HydrationNode}
      (hm : (p.nodes.map fun n => { n with indexBy := index n })[i]? = some m) :
      ∃ n, p.nodes[i]? = some n ∧ { n with indexBy := index n } = m := by
    rwa [List.getElem?_map, Option.map_eq_some_iff] at hm
  constructor
  · obtain ⟨n, hn, hp⟩ := ht.root
    exact ⟨_, hto hn, hp⟩
  · intro i m hm hi
    obtain ⟨n, hn, rfl⟩ := hfrom hm
    exact ht.parent i n hn hi
  · intro i m hm c
    obtain ⟨n, hn, rfl⟩ := hfrom hm
    rw [ht.children i n hn c]
    constructor
    · rintro ⟨m, hm, hp⟩
      exact ⟨_, hto hm, hp⟩
    · rintro ⟨m', hm', hp⟩
      obtain ⟨m, hm, rfl⟩ := hfrom hm'
      exact ⟨m, hm, hp⟩
  · intro m hm
    obtain ⟨n, hn, rfl⟩ := List.mem_map.1 hm
    exact ht.nodup n hn

namespace Hydrator.Sample

/-- Users by name, each with the phones by their numbers. -/
def usersByName : HydrationPlan :=
  ⟨users.nodes.map fun n => { n with indexBy := n.fields.getLast?.map (·.output) }⟩

/-- The name of the first user is that of the third; the first user comes back at the end. -/
def namesakeRows : List Row :=
  [[("u_id", .int 1), ("u_name", .string "ann"), ("p_id", .int 7)],
    [("u_id", .int 2), ("u_name", .string "bob"), ("p_id", .null)],
    [("u_id", .int 3), ("u_name", .string "ann"), ("p_id", .int 8)],
    [("u_id", .int 1), ("u_name", .string "ann"), ("p_id", .int 9)]]

end Hydrator.Sample

open Hydrator.Sample in
theorem HydrationPlan.hydrate_indexes_namesakes : ∃ c,
    hydrate usersByName .record namesakeRows = .ok (.records c) ∧
      c = usersByName.collected namesakeRows 0 [] ∧ c.keys = some ["ann", "bob"] ∧
      (c.get? "ann").map (·.data) = some [("id", .int 3), ("name", .string "ann")] ∧
      (HydratedResult.array c.toValue).size = (HydratedResult.records c).size := by
  have hrun : (hydrate usersByName .record namesakeRows).toOption.bind (fun
      | .records c => some (c.keys, (c.get? "ann").map (·.data))
      | _ => none) =
      some (some ["ann", "bob"], some [("id", .int 3), ("name", .string "ann")]) := by
    decide +kernel
  obtain ⟨result, hresult⟩ := Except.exists_eq_ok
    (x := hydrate usersByName .record namesakeRows) (by decide +kernel)
  rw [hresult] at hrun
  cases result with
  | records c =>
    obtain ⟨hkeys, hann⟩ := Prod.mk.inj (Option.some.inj hrun)
    obtain ⟨hc, -, -, -, hsize⟩ := (users_isTree.reindexed _).hydrate_indexes hresult
    exact ⟨c, hresult, hc, hkeys, hann, hsize⟩
  | array | scalar => cases hrun

end ObjectQuery
