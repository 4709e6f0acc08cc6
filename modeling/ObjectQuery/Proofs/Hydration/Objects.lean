import ObjectQuery.Proofs.Hydration.Made

/-! # Records as objects

The records of a forest hold, under the slots of their nodes, the records of the branches below. As an
object a record shares one key space between its values and its slots.

* `Collection.Reaches`: the records of a collection, at any depth;
* `Record.MadeAt`: a record of a node, made from a row;
* `Hydrator.reaches_madeAt`: all records of a result are of this kind;
* `Record.owns_toValue`: when an object shows all that its record holds;
* `Value.Holds`, `Collection.toValue_holds`: the objects in a nested value. -/

namespace ObjectQuery

variable {plan : HydrationPlan} {n : HydrationNode} {rows : List Row} {row : Row} {r : Record}
  {c : Collection} {entries own : List Entry} {forest : List Branch} {hydrator : Hydrator}
  {mode : HydrationMode} {related : Related} {name : String}

/-- A record is in a collection, at any depth. -/
inductive Collection.Reaches (c : Collection) : Record → Prop
  | top {r : Record} (h : r ∈ c.records) : Reaches c r
  | one {holder r : Record} {name : String} (h : Reaches c holder)
    (hr : (name, .one (some r)) ∈ holder.relations) : Reaches c r
  | many {holder r : Record} {name : String} {held : Collection} (h : Reaches c holder)
    (hheld : (name, .many held) ∈ holder.relations) (hr : r ∈ held.records) : Reaches c r

/-- The names of the slots of a node, one for each of its children. -/
def HydrationPlan.slotNames (plan : HydrationPlan) (n : HydrationNode) : List String :=
  n.children.filterMap fun c => plan.nodes[c]?.map (·.slotName)

/-- The record is made from the row at the node. -/
structure Record.MadeAt (r : Record) (plan : HydrationPlan) (n : HydrationNode) (row : Row) :
    Prop where
  component : r.component = n.component
  data : Row.Collects row n.bindings r.data
  slots : r.relations.map (·.1) = plan.slotNames n

/-- The records have keys of their own, or no keys. -/
def Collection.WellKeyed (c : Collection) : Prop :=
  ∀ keys ∈ c.keys, keys.Nodup ∧ keys.length = c.records.length

/-! ## Collections of entries -/

theorem mem_placeEntry {placed : List String × List Record} {e : Entry}
    (h : r ∈ (placeEntry placed e).2) : r ∈ placed.2 ∨ r = e.record := by
  rw [placeEntry] at h
  split at h
  · exact (List.mem_append.1 h).imp_right List.mem_singleton.1
  · split at h
    · exact List.mem_or_eq_of_mem_set h
    · exact (List.mem_append.1 h).imp_right List.mem_singleton.1

theorem mem_foldl_placeEntry {placed : List String × List Record}
    (h : r ∈ (entries.foldl placeEntry placed).2) : r ∈ placed.2 ∨ ∃ e ∈ entries, e.record = r := by
  induction entries generalizing placed with
  | nil => exact .inl h
  | cons e entries ih =>
    rcases ih h with h | ⟨e', he', hr⟩
    · exact (mem_placeEntry h).imp_right fun hr => ⟨e, List.mem_cons_self, hr.symm⟩
    · exact .inr ⟨e', List.mem_cons_of_mem _ he', hr⟩

/-- The records of a collection are among the entries. -/
theorem Collection.mem_records_ofEntries (h : r ∈ (ofEntries n entries).records) :
    ∃ e ∈ entries, e.record = r :=
  (mem_foldl_placeEntry h).resolve_left List.not_mem_nil

theorem placeEntry_keyed {placed : List String × List Record} {e : Entry} (he : e.key.isSome = true)
    (h : placed.1.Nodup ∧ placed.1.length = placed.2.length) :
    (placeEntry placed e).1.Nodup ∧ (placeEntry placed e).1.length = (placeEntry placed e).2.length := by
  obtain ⟨key, hkey⟩ := Option.isSome_iff_exists.1 he
  rw [placeEntry, hkey]
  dsimp only
  split
  · exact ⟨h.1, by rw [List.length_set, h.2]⟩
  · rename_i hnone
    refine ⟨?_, by simp [h.2]⟩
    rw [List.nodup_append_comm]
    exact List.nodup_cons.2 ⟨List.idxOf?_eq_none_iff.1 hnone, h.1⟩

theorem foldl_placeEntry_keyed (h : ∀ e ∈ entries, e.key.isSome = true)
    {placed : List String × List Record}
    (hplaced : placed.1.Nodup ∧ placed.1.length = placed.2.length) :
    (entries.foldl placeEntry placed).1.Nodup ∧
      (entries.foldl placeEntry placed).1.length = (entries.foldl placeEntry placed).2.length := by
  induction entries generalizing placed with
  | nil => exact hplaced
  | cons e entries ih =>
    obtain ⟨he, h⟩ := List.forall_mem_cons.1 h
    exact ih h (placeEntry_keyed he hplaced)

/-- The records of a keyed node have keys of their own. -/
theorem Collection.wellKeyed_ofEntries (h : ∀ e ∈ entries, e.key.isSome = n.indexBy.isSome) :
    (ofEntries n entries).WellKeyed := by
  intro keys hkeys
  rw [ofEntries, Option.mem_def] at hkeys
  dsimp only at hkeys
  split at hkeys
  · rename_i hindex
    cases hkeys
    exact foldl_placeEntry_keyed (fun e he => (h e he).trans hindex) ⟨List.nodup_nil, rfl⟩
  · cases hkeys

/-! ## Records of branches -/

theorem map_fst_slotsOf (listed cs : List Nat) : (slotsOf plan entries listed cs).map (·.1) =
    cs.filterMap fun c => plan.nodes[c]?.map (·.slotName) := by
  induction cs generalizing listed with
  | nil => rfl
  | cons c cs ih =>
    rw [slotsOf, List.filterMap_cons]
    split
    · rename_i hnone
      rw [ih, hnone]
      rfl
    · rename_i hsome
      rw [List.map_cons, ih, hsome]
      rfl

/-- What a slot holds are records below, of one node. -/
theorem mem_slotsOf {listed cs : List Nat} (h : (name, related) ∈ slotsOf plan entries listed cs) :
    ∃ c n own, plan.nodes[c]? = some n ∧ related = Related.ofEntries n own ∧
      ∀ e ∈ own, e ∈ entries ∧ e.node = c := by
  induction cs generalizing listed with
  | nil => cases h
  | cons c cs ih =>
    rw [slotsOf] at h
    split at h
    · exact ih h
    · rename_i n hn
      rcases List.mem_cons.1 h with he | h
      · obtain ⟨-, rfl⟩ := Prod.mk.inj he
        refine ⟨c, n, _, hn, rfl, fun e he => ?_⟩
        split at he
        · cases he
        · obtain ⟨he, hnode⟩ := List.mem_filter.1 he
          exact ⟨he, eq_of_beq hnode⟩
      · exact ih h

theorem Branch.mem_entries {e : Entry} {bs : List Branch} (h : e ∈ Branch.entries plan bs) :
    ∃ b ∈ bs, e = b.entry plan := by
  induction bs with
  | nil => cases h
  | cons b bs ih =>
    rw [Branch.entries] at h
    rcases List.mem_cons.1 h with rfl | h
    · exact ⟨b, List.mem_cons_self, rfl⟩
    · obtain ⟨b', hb', he⟩ := ih h
      exact ⟨b', List.mem_cons_of_mem _ hb', he⟩

theorem Branch.entry_eq_recordAt (b : Branch) : b.entry plan =
    ⟨b.node, b.key, recordAt plan b.node b.data (Branch.entries plan b.children)⟩ := by
  obtain ⟨node, identity, key, data, children⟩ := b
  rw [Branch.entry]

/-- The record of a branch that is made from a row. -/
theorem Branch.MadeFrom.madeAt {b : Branch} (h : b.MadeFrom plan rows) :
    ∃ n ∈ plan.nodes, ∃ row ∈ rows, (b.entry plan).record.MadeAt plan n row := by
  obtain ⟨n, hn, -, row, hrow, hdata⟩ := h
  refine ⟨n, List.mem_of_getElem? hn, row, hrow, ?_⟩
  rw [Branch.entry_eq_recordAt, recordAt, hn]
  exact ⟨rfl, hdata, map_fst_slotsOf [] n.children⟩

/-- What the record of a branch holds are records of branches below it. -/
theorem Branch.mem_relations_entry {b : Branch}
    (h : (name, related) ∈ (b.entry plan).record.relations) :
    ∃ c n own, plan.nodes[c]? = some n ∧ related = Related.ofEntries n own ∧
      ∀ e ∈ own, ∃ b' ∈ b.children, e = b'.entry plan ∧ b'.node = c := by
  rw [Branch.entry_eq_recordAt, recordAt] at h
  split at h
  · cases h
  · obtain ⟨c, m, own, hm, hrelated, hown⟩ := mem_slotsOf h
    refine ⟨c, m, own, hm, hrelated, fun e he => ?_⟩
    obtain ⟨he, hnode⟩ := hown e he
    obtain ⟨b', hb', rfl⟩ := Branch.mem_entries he
    rw [Branch.entry_eq_recordAt] at hnode
    exact ⟨b', hb', rfl, hnode⟩

theorem Related.ofEntries_eq_one (h : Related.ofEntries n entries = .one (some r)) :
    ∃ e ∈ entries, e.record = r := by
  rw [ofEntries] at h
  split at h
  · cases h
  · obtain ⟨e, he, hr⟩ := Option.map_eq_some_iff.1 (Related.one.inj h)
    exact ⟨e, List.mem_of_getLast? he, hr⟩

theorem Related.ofEntries_eq_many (h : Related.ofEntries n entries = .many c) :
    c = Collection.ofEntries n entries := by
  rw [ofEntries] at h
  split at h
  · exact (Related.many.inj h).symm
  · cases h

/-- Branches below a branch are in the same forest. -/
theorem Branch.Inside.child {b b' : Branch} (h : b.Inside forest) (hb : b' ∈ b.children) :
    b'.Inside forest := by
  induction h with
  | here hc => exact .under hc (.here hb)
  | under hc _ ih => exact .under hc ih

theorem mem_records_rootCollection (h : r ∈ (rootCollection plan forest).records) :
    ∃ b ∈ forest, r = (b.entry plan).record := by
  rw [rootCollection] at h
  split at h
  · cases h
  · obtain ⟨e, he, rfl⟩ := Collection.mem_records_ofEntries h
    obtain ⟨b, hb, rfl⟩ := Branch.mem_entries he
    exact ⟨b, hb, rfl⟩

/-- The records of a collection, at any depth, are those of branches of its forest. -/
theorem Collection.Reaches.exists_branch (h : (rootCollection plan forest).Reaches r) :
    ∃ b, Branch.Inside b forest ∧ r = (b.entry plan).record := by
  induction h with
  | top hr =>
    obtain ⟨b, hb, he⟩ := mem_records_rootCollection hr
    exact ⟨b, .here hb, he⟩
  | one _ hr ih =>
    obtain ⟨b, hb, rfl⟩ := ih
    obtain ⟨c, n, own, -, hrelated, hown⟩ := Branch.mem_relations_entry hr
    obtain ⟨e, he, rfl⟩ := Related.ofEntries_eq_one hrelated.symm
    obtain ⟨b', hb', rfl, -⟩ := hown e he
    exact ⟨b', hb.child hb', rfl⟩
  | many _ hheld hr ih =>
    obtain ⟨b, hb, rfl⟩ := ih
    obtain ⟨c, n, own, -, hrelated, hown⟩ := Branch.mem_relations_entry hheld
    rw [Related.ofEntries_eq_many hrelated.symm] at hr
    obtain ⟨e, he, rfl⟩ := Collection.mem_records_ofEntries hr
    obtain ⟨b', hb', rfl, -⟩ := hown e he
    exact ⟨b', hb.child hb', rfl⟩

/-- Every collection that a record of a grown forest holds has keys of its own. -/
theorem Branch.wellKeyed_of_mem_relations {b : Branch} {held : Collection}
    (hmade : ∀ b, Branch.Inside b forest → b.MadeFrom plan rows) (hb : b.Inside forest)
    (h : (name, .many held) ∈ (b.entry plan).record.relations) : held.WellKeyed := by
  obtain ⟨c, n, own, hn, hrelated, hown⟩ := Branch.mem_relations_entry h
  rw [Related.ofEntries_eq_many hrelated.symm]
  refine Collection.wellKeyed_ofEntries fun e he => ?_
  obtain ⟨b', hb', rfl, rfl⟩ := hown e he
  obtain ⟨m, hm, hkey, -⟩ := hmade b' (hb.child hb')
  cases hn.symm.trans hm
  rwa [Branch.entry_eq_recordAt]

theorem wellKeyed_rootCollection (hmade : ∀ b, Branch.Inside b forest → b.MadeFrom plan rows)
    (htop : ∀ b ∈ forest, b.node = 0) : (rootCollection plan forest).WellKeyed := by
  rw [rootCollection]
  split
  · intro keys hkeys
    cases hkeys
  · rename_i n hn
    rw [HydrationPlan.root?, List.head?_eq_getElem?] at hn
    refine Collection.wellKeyed_ofEntries fun e he => ?_
    obtain ⟨b, hb, rfl⟩ := Branch.mem_entries he
    obtain ⟨m, hm, hkey, -⟩ := hmade b (.here hb)
    rw [htop b hb] at hm
    cases hn.symm.trans hm
    rwa [Branch.entry_eq_recordAt]

/-! ## Objects -/

theorem Record.toValue_eq (r : Record) :
    r.toValue = .object (Fields.putAll r.data (Record.relationValues r.relations)) := by
  obtain ⟨component, data, relations⟩ := r
  rw [Record.toValue]
  rfl

theorem Record.relationValues_eq (relations : List (String × Related)) :
    Record.relationValues relations = relations.map fun p => (p.1, p.2.toValue) := by
  induction relations with
  | nil => rfl
  | cons p relations ih => rw [Record.relationValues, ih, List.map_cons]

theorem Record.values_eq (records : List Record) : Record.values records = records.map (·.toValue) := by
  induction records with
  | nil => rfl
  | cons r records ih => rw [Record.values, ih, List.map_cons]

/-- All that a record holds: its values, and what is under its slots. -/
def Record.held (r : Record) : Fields := r.data ++ Record.relationValues r.relations

/-- The slots of a node have different names, and none of them is the key of a value. -/
structure HydrationPlan.Distinct (plan : HydrationPlan) (n : HydrationNode) : Prop where
  slots : (plan.slotNames n).Nodup
  values : ∀ name ∈ plan.slotNames n, name ∉ n.bindings.map (·.key)

instance (plan : HydrationPlan) (n : HydrationNode) : Decidable (plan.Distinct n) :=
  decidable_of_iff (_ ∧ _) ⟨fun h => ⟨h.1, h.2⟩, fun h => ⟨h.slots, h.values⟩⟩

section
variable (h : r.MadeAt plan n row)
include h

theorem Record.MadeAt.names_relationValues :
    Fields.names (Record.relationValues r.relations) = plan.slotNames n := by
  rw [Record.relationValues_eq, Fields.names, List.map_map, ← h.slots]
  rfl

/-- The object of a record shows its values and its slots, each in an entry of its own, just when their
names are different. -/
theorem Record.MadeAt.owns_toValue :
    (Fields.putAll r.data (Record.relationValues r.relations)).Owns r.held ↔ plan.Distinct n := by
  have hdata := h.data.nodup_names
  rw [Record.held, Fields.owns_putAll hdata, h.names_relationValues, List.nodup_append']
  refine ⟨fun ⟨_, hslots, hdisjoint⟩ => ⟨hslots, fun name hname hkey => ?_⟩,
    fun ⟨hslots, hvalues⟩ => ⟨hdata, hslots, fun name hname hslot => ?_⟩⟩
  · exact hdisjoint ((h.data.mem_names name).2 hkey) hname
  · exact hvalues name hslot ((h.data.mem_names name).1 hname)

theorem Record.MadeAt.toValue_eq (hd : plan.Distinct n) : r.toValue = .object r.held := by
  rw [Record.toValue_eq, Fields.putAll_of_nodup, Record.held]
  rw [← Fields.owns_putAll h.data.nodup_names]
  exact h.owns_toValue.2 hd

end

/-! ## Objects in nested values -/

/-- A value is the other or is in it, at any depth. -/
inductive Value.Holds (v : Value) : Value → Prop
  | self : Holds v v
  | item {items : List Value} {w : Value} (h : Holds v (.array items)) (hw : w ∈ items) : Holds v w
  | field {fs : Fields} {name : String} {w : Value} (h : Holds v (.object fs))
    (hw : (name, w) ∈ fs) : Holds v w

/-- A collection as a value holds its records. -/
theorem Collection.holds_toValue {v : Value} (hc : c.WellKeyed) (hr : r ∈ c.records)
    (h : v.Holds c.toValue) : v.Holds r.toValue := by
  obtain ⟨component, keys, records⟩ := c
  have hmem : r.toValue ∈ Record.values records := by
    rw [Record.values_eq]
    exact List.mem_map_of_mem hr
  cases keys with
  | none =>
    rw [Collection.toValue] at h
    exact h.item hmem
  | some keys =>
    obtain ⟨hnodup, hlength⟩ := hc keys rfl
    have hlength : keys.length = (Record.values records).length := by
      rw [Record.values_eq, List.length_map]
      exact hlength
    have hnames : Fields.names (keys.zip (Record.values records)) = keys :=
      List.map_fst_zip hlength.le
    rw [Collection.toValue, Fields.ofPairs_eq, Fields.putAll_of_nodup (by rwa [hnames])] at h
    obtain ⟨p, hp, hv⟩ := List.mem_map.1
      ((List.map_snd_zip hlength.ge).symm ▸ hmem : r.toValue ∈ (keys.zip _).map (·.2))
    exact h.field (hv ▸ hp : (p.1, r.toValue) ∈ _)

/-- What is under a slot of a record is in its object. -/
theorem Record.MadeAt.holds_related {v : Value} (h : r.MadeAt plan n row)
    (hd : plan.Distinct n) (hr : (name, related) ∈ r.relations) (hv : v.Holds r.toValue) :
    v.Holds related.toValue := by
  rw [h.toValue_eq hd] at hv
  have hslot : (name, related.toValue) ∈ Record.relationValues r.relations := by
    rw [Record.relationValues_eq]
    exact List.mem_map.2 ⟨_, hr, rfl⟩
  exact hv.field (List.mem_append_right _ hslot)

/-- Where all names are different, the nested value has the objects of all records. -/
theorem Collection.Reaches.holds (hmade : ∀ b, Branch.Inside b forest → b.MadeFrom plan rows)
    (htop : ∀ b ∈ forest, b.node = 0)
    (hd : ∀ n ∈ plan.nodes, plan.Distinct n) (h : (rootCollection plan forest).Reaches r) :
    (rootCollection plan forest).toValue.Holds r.toValue := by
  have hrelated {holder : Record} {name : String} {related : Related}
      (h : (rootCollection plan forest).Reaches holder)
      (hr : (name, related) ∈ holder.relations)
      (hv : (rootCollection plan forest).toValue.Holds holder.toValue) :
      (rootCollection plan forest).toValue.Holds related.toValue := by
    obtain ⟨b, hb, rfl⟩ := h.exists_branch
    obtain ⟨n, hn, row, hrow, hat⟩ := (hmade b hb).madeAt
    exact hat.holds_related (hd n hn) hr hv
  induction h with
  | top hr => exact holds_toValue (wellKeyed_rootCollection hmade htop) hr .self
  | one h hr ih => exact hrelated h hr ih
  | many h hheld hr ih =>
    obtain ⟨b, hb, rfl⟩ := h.exists_branch
    exact holds_toValue (Branch.wellKeyed_of_mem_relations hmade hb hheld) hr (hrelated h hheld ih)

/-! ## All rows -/

/-- The forest does not depend on whether records or nested values are asked for. -/
theorem Hydrator.pushAll_array {next : Hydrator} (hydrator : Hydrator) (hmode : hydrator.mode = .record)
    (h : hydrator.pushAll rows = .ok next) :
    Hydrator.pushAll { hydrator with mode := .array } rows = .ok { next with mode := .array } := by
  induction rows generalizing hydrator with
  | nil =>
    cases h
    rfl
  | cons row rows ih =>
    rw [pushAll, push_forest (by simp [hmode])] at h
    rw [pushAll, push_forest (by simp)]
    split at h
    · rename_i next' hpush
      obtain ⟨rfl, herror⟩ := Prod.mk.inj hpush
      have hrest := ih { hydrator with
        rowsSeen := hydrator.rowsSeen + 1
        forest := _ } hmode h
      simp only [herror]
      exact hrest
    · cases h

/-- Rows that have what is read become records. -/
theorem HydrationPlan.exists_hydrate_records
    (h : ∀ row ∈ rows, ∀ n ∈ plan.nodes, n.ReadsFrom row) :
    ∃ c, hydrate plan .record rows = .ok (.records c) := by
  obtain ⟨next, hnext⟩ : ∃ next, (Hydrator.new plan .record).pushAll rows = .ok next :=
    Hydrator.pushAll_eq_ok h
  obtain ⟨-, hmode, -⟩ := Hydrator.pushAll_made (by decide) hnext
  refine ⟨rootCollection next.plan next.forest, ?_⟩
  rw [hydrate, hnext]
  simp only [bind, Except.bind, pure, Except.pure, Hydrator.finish, hmode]

/-- The records of rows are those of the forest that the rows grow. -/
theorem HydrationPlan.exists_of_hydrate_records (h : hydrate plan .record rows = .ok (.records c)) :
    ∃ next, (Hydrator.new plan .record).pushAll rows = .ok next ∧ next.plan = plan ∧
      rootCollection plan next.forest = c := by
  obtain ⟨next, hnext, h⟩ := Except.bind_eq_ok.1 h
  obtain ⟨hplan, hmode, -⟩ := Hydrator.pushAll_made (by decide) hnext
  rw [Except.pure_eq_ok, Hydrator.finish, hmode, hplan] at h
  exact ⟨next, hnext, hplan, HydratedResult.records.inj h⟩

/-- Rows become records that are made from them at the nodes of the tree, or the nested value of these
records. -/
theorem HydrationPlan.IsTree.hydrate_records (ht : plan.IsTree)
    (h : hydrate plan .record rows = .ok (.records c)) :
      hydrate plan .array rows = .ok (.array c.toValue) ∧
      (∀ r, c.Reaches r → ∃ n ∈ plan.nodes, ∃ row ∈ rows, r.MadeAt plan n row) ∧
      ((∀ n ∈ plan.nodes, plan.Distinct n) → ∀ r, c.Reaches r → c.toValue.Holds r.toValue) := by
  obtain ⟨next, hnext, hplan, rfl⟩ := exists_of_hydrate_records h
  have harray := Hydrator.pushAll_array _ rfl hnext
  obtain ⟨-, -, hmade⟩ := Hydrator.pushAll_made (by decide) hnext
  have htop := Hydrator.pushAll_roots ht (by decide) hnext
  refine ⟨?_, fun r hr => ?_, fun hd r hr => hr.holds hmade htop hd⟩
  · rw [hydrate, Hydrator.new]
    rw [Hydrator.new] at harray
    rw [harray, ← hplan]
    rfl
  · obtain ⟨b, hb, rfl⟩ := hr.exists_branch
    exact (hmade b hb).madeAt

end ObjectQuery
