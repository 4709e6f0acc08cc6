import ObjectQuery.Proofs.Compiler.Hydration
import ObjectQuery.Proofs.Hydration.Objects

/-! # Entries of hydrated results

A result has an entry for every value and every slot as long as their names differ. Flat rows join the
names of aliases and fields, records put the values of fields beside those of expressions, and objects
put the slots beside both; where two names meet the later value takes the entry of the earlier.

* `Compiler.compile_keeps_values`: the values of flat rows and records;
* `Compiler.compile_keeps_slots`: the slots of objects. -/

namespace ObjectQuery

open HydrationPlan

variable {c : Compiler} {T : Text} {values : List Value} {r : CompiledQuery} {p : QueryPlan}
  {n : HydrationNode} {row : Row} {rows : List Row}

/-! ## Keys of a node -/

/-- The fields of a node have different keys, so that a key that comes twice is that of an
expression. -/
theorem HydrationPlan.nodup_keys_iff (hn : n ∈ (ofQueryPlan p).nodes) :
    (n.bindings.map (·.key)).Nodup ↔
      (n.aggregates.map (·.key)).Nodup ∧ ∀ b ∈ n.aggregates, b.key ∉ n.fields.map (·.key) := by
  obtain ⟨i, hi⟩ := List.mem_iff_getElem?.1 hn
  obtain ⟨j, -, rfl⟩ := exists_of_getElem?_ofQueryPlan hi
  have hfields : ((nodeAt p i j).fields.map (·.key)).Nodup := by
    have hkeys := nodup_selectedFields p.clauses j.id
    rwa [show (nodeAt p i j).fields.map (·.key) =
      (selectedFields p.clauses.select j.id).map (·.field) from List.map_map]
  rw [HydrationNode.bindings, List.map_append, List.nodup_append']
  constructor
  · rintro ⟨-, haggregates, hdisjoint⟩
    exact ⟨haggregates, fun b hb hfield => hdisjoint hfield (List.mem_map_of_mem hb)⟩
  · rintro ⟨haggregates, hnot⟩
    refine ⟨hfields, haggregates, fun key hfield haggregate => ?_⟩
    obtain ⟨b, hb, rfl⟩ := List.mem_map.1 haggregate
    exact hnot b hb hfield

/-! ## Values -/

namespace Sample

/-- A column, and an expression under the name of its field. -/
def shadowed : Text := "SELECT u.id, UPPER(u.name) id FROM User u".toList

/-- A user, with the name in capitals. -/
def shadowedRow : Row := [("u__id", .int 1), ("u__0", .string "ANN")]

end Sample

/-- Of the bindings with one key the last is seen, in flat rows as in records: every field and every
expression of the nodes has an entry of its own in a flat row just when the names there are different,
and in the data of a record just when the keys of its node are different. Keys that meet in a record
are those of expressions. -/
theorem Compiler.compile_keeps_values (h : c.compile T values = .ok r) :
    ∃ p, plan c.toSurroundings T = .ok p ∧
      ∀ rows, (∀ row ∈ rows, ∀ output ∈ (p.selectStatement c.dialect).outputs,
          (Fields.get? row output).isSome = true) →
        (∃ flats, hydrate r.hydrationPlan .scalar rows = .ok (.scalar flats) ∧
          List.Forall₂ (fun row flat =>
            (∀ name, Fields.get? flat name =
              Fields.get? (Row.pairs row r.hydrationPlan.flatBindings).reverse name) ∧
            (Fields.Owns flat (Row.pairs row r.hydrationPlan.flatBindings) ↔
              (r.hydrationPlan.flatBindings.map (·.key)).Nodup)) rows flats) ∧
        (∀ n ∈ r.hydrationPlan.nodes, ∀ row ∈ rows, ∀ position identity,
          ∃ b, Branch.ofRow n position identity row = .ok b ∧
            (∀ key, Fields.get? b.data key = Fields.get? (Row.pairs row n.bindings).reverse key) ∧
            (Fields.Owns b.data (Row.pairs row n.bindings) ↔ (n.bindings.map (·.key)).Nodup) ∧
            ((n.bindings.map (·.key)).Nodup ↔ (n.aggregates.map (·.key)).Nodup ∧
              ∀ b ∈ n.aggregates, b.key ∉ n.fields.map (·.key))) ∧
        ∃ records, hydrate r.hydrationPlan .record rows = .ok (.records records) ∧
          ∀ record, records.Reaches record → ∃ n ∈ r.hydrationPlan.nodes, ∃ row ∈ rows,
            record.component = n.component ∧
            (Fields.Owns record.data (Row.pairs row n.bindings) ↔ (n.bindings.map (·.key)).Nodup) := by
  obtain ⟨p, hp, hr⟩ := Except.bind_eq_ok.1 h
  cases hr
  have hp := (boundPlan_eq_ok.1 hp).1
  refine ⟨p, hp, fun rows hrows => ?_⟩
  have hread : ∀ row ∈ rows, ∀ n ∈ (ofQueryPlan p).nodes, n.ReadsFrom row :=
    fun row hrow n hn output ho =>
      hrows row hrow output (QueryPlan.mem_outputs_selectStatement.2 (mem_outputs_of_mem hn ho))
  refine ⟨⟨_, hydrate_scalar hread, ?_⟩, fun n hn row hrow position identity => ?_, ?_⟩
  · rw [List.forall₂_map_right_iff, List.forall₂_same]
    intro row hrow
    have hflat : Row.Collects row (ofQueryPlan p).flatBindings _ :=
      ⟨flatBindings_isSome (hread row hrow), rfl⟩
    exact ⟨hflat.get?, hflat.owns_iff⟩
  · obtain ⟨b, hb⟩ := Branch.ofRow_eq_ok (hread row hrow n hn) position identity
    have hdata := (Branch.ofRow_values hb).2.2.1
    exact ⟨b, hb, hdata.get?, hdata.owns_iff, nodup_keys_iff hn⟩
  · obtain ⟨records, hrecords⟩ := exists_hydrate_records hread
    obtain ⟨-, hmade, -⟩ := (plan_isTree hp).hydrate_records hrecords
    refine ⟨records, hrecords, fun record hrecord => ?_⟩
    obtain ⟨n, hn, row, hrow, hat⟩ := hmade record hrecord
    exact ⟨n, hn, row, hrow, hat.component, hat.data.owns_iff⟩

/-- Users have a value for their number and one for their name in capitals. -/
theorem Compiler.compile_keeps_values_shouted : ∃ r flats,
    Sample.compiler.compile Sample.shouted [] = .ok r ∧
      hydrate r.hydrationPlan .scalar Sample.shoutedRows = .ok (.scalar flats) ∧
        List.Forall₂ (fun row flat => Fields.Owns flat (Row.pairs row r.hydrationPlan.flatBindings))
          Sample.shoutedRows flats := by
  obtain ⟨p, hp, hcount, houtputs, hkeys⟩ : ∃ p,
      plan Sample.compiler.toSurroundings Sample.shouted = .ok p ∧ p.placeholders = 0 ∧
      p.outputs = ["u__id", "u__0"] ∧ ((ofQueryPlan p).flatBindings.map (·.key)).Nodup := by
    decide +kernel
  have hr : Sample.compiler.compile Sample.shouted [] = .ok _ := compile_of_plan hp hcount
  obtain ⟨q, hq, hall⟩ := compile_keeps_values hr
  cases Except.ok.inj (hp.symm.trans hq)
  obtain ⟨⟨flats, hflats, howns⟩, -⟩ := hall Sample.shoutedRows fun row hrow output ho =>
    Sample.shoutedRows_reads row hrow output
      (houtputs ▸ QueryPlan.mem_outputs_selectStatement.1 ho)
  exact ⟨_, flats, hr, hflats, howns.imp fun row flat h => h.2.2 hkeys⟩

/-- The expression takes the entry of the column. -/
theorem Compiler.compile_loses_value : ∃ r p, Sample.compiler.compile Sample.shadowed [] = .ok r ∧
    plan Sample.compiler.toSurroundings Sample.shadowed = .ok p ∧
      (∀ output ∈ (p.selectStatement Sample.compiler.dialect).outputs,
        (Fields.get? Sample.shadowedRow output).isSome = true) ∧
      (∃ flat, hydrate r.hydrationPlan .scalar [Sample.shadowedRow] = .ok (.scalar [flat]) ∧
        ¬Fields.Owns flat (Row.pairs Sample.shadowedRow r.hydrationPlan.flatBindings)) ∧
      ∃ n ∈ r.hydrationPlan.nodes, ∃ b, Branch.ofRow n 0 ["1"] Sample.shadowedRow = .ok b ∧
        ¬Fields.Owns b.data (Row.pairs Sample.shadowedRow n.bindings) := by
  obtain ⟨p, hp, hcount, houtputs, hflat, n, hn, hkeys⟩ : ∃ p,
      plan Sample.compiler.toSurroundings Sample.shadowed = .ok p ∧ p.placeholders = 0 ∧
      (∀ output ∈ p.outputs, (Fields.get? Sample.shadowedRow output).isSome = true) ∧
      ¬((ofQueryPlan p).flatBindings.map (·.key)).Nodup ∧
      ∃ n ∈ (ofQueryPlan p).nodes, ¬(n.bindings.map (·.key)).Nodup := by decide +kernel
  have hr : Sample.compiler.compile Sample.shadowed [] = .ok _ := compile_of_plan hp hcount
  have hread : ∀ n ∈ (ofQueryPlan p).nodes, n.ReadsFrom Sample.shadowedRow :=
    fun n hn output ho => houtputs output (mem_outputs_of_mem hn ho)
  refine ⟨_, p, hr, hp, fun output ho => houtputs _ (QueryPlan.mem_outputs_selectStatement.1 ho),
    ⟨_, hydrate_scalar (List.forall_mem_singleton.2 hread), ?_⟩, n, hn, ?_⟩
  · have hcollects : Row.Collects Sample.shadowedRow (ofQueryPlan p).flatBindings _ :=
      ⟨flatBindings_isSome hread, rfl⟩
    rwa [hcollects.owns_iff]
  · obtain ⟨b, hb⟩ := Branch.ofRow_eq_ok (hread n hn) 0 ["1"]
    refine ⟨b, hb, ?_⟩
    rwa [(Branch.ofRow_values hb).2.2.1.owns_iff]

/-! ## Slots -/

namespace Sample

/-- The numbers of phones, with how many users have them. -/
def shared : Text :=
  "SELECT p.number, COUNT(u.id) users FROM User u LEFT JOIN u.phones p GROUP BY p.number".toList

/-- The same under the name of the relation. -/
def sharedPhones : Text :=
  "SELECT p.number, COUNT(u.id) phones FROM User u LEFT JOIN u.phones p GROUP BY p.number".toList

/-- A number that two users have. -/
def sharedRows : List Row := [[("p__number", .string "5"), ("u__0", .int 2)]]

end Sample

/-- Nested values have the object of every record, with an entry for each of its values and each of its
slots, as long as no node has two slots of one name, or a slot with the name of a value. In the object
of a record of a node that has such slots, one replaces what comes before it. -/
theorem Compiler.compile_keeps_slots {records : Collection} (h : c.compile T values = .ok r)
    (hrows : hydrate r.hydrationPlan .record rows = .ok (.records records)) :
    hydrate r.hydrationPlan .array rows = .ok (.array records.toValue) ∧
      (∀ record, records.Reaches record → ∃ n ∈ r.hydrationPlan.nodes,
        record.component = n.component ∧
        record.relations.map (·.1) = r.hydrationPlan.slotNames n ∧
        ∃ fs, record.toValue = .object fs ∧
          (∀ name, Fields.get? fs name =
            Fields.get? ((Record.relationValues record.relations).reverse ++ record.data) name) ∧
          (Fields.Owns fs record.held ↔ r.hydrationPlan.Distinct n)) ∧
      ((∀ n ∈ r.hydrationPlan.nodes, r.hydrationPlan.Distinct n) →
        ∀ record, records.Reaches record → records.toValue.Holds record.toValue) := by
  obtain ⟨p, hp, hr⟩ := Except.bind_eq_ok.1 h
  cases hr
  obtain ⟨harray, hmade, hholds⟩ :=
    (plan_isTree (boundPlan_eq_ok.1 hp).1).hydrate_records hrows
  refine ⟨harray, fun record hrecord => ?_, hholds⟩
  obtain ⟨n, hn, row, -, hat⟩ := hmade record hrecord
  exact ⟨n, hn, hat.component, hat.slots, _, record.toValue_eq, Fields.get?_putAll _ _,
    hat.owns_toValue⟩

/-- The number of users stands beside the phones. -/
theorem Compiler.compile_keeps_slots_shared : ∃ r records,
    Sample.compiler.compile Sample.shared [] = .ok r ∧
      hydrate r.hydrationPlan .record Sample.sharedRows = .ok (.records records) ∧
        hydrate r.hydrationPlan .array Sample.sharedRows = .ok (.array records.toValue) ∧
          ∀ record, records.Reaches record → records.toValue.Holds record.toValue := by
  obtain ⟨r, hr, hread, hdistinct⟩ : ∃ r, Sample.compiler.compile Sample.shared [] = .ok r ∧
      (∀ row ∈ Sample.sharedRows, ∀ n ∈ r.hydrationPlan.nodes, ∀ output ∈ n.outputs,
        (Fields.get? row output).isSome = true) ∧
      ∀ n ∈ r.hydrationPlan.nodes, r.hydrationPlan.Distinct n := by decide +kernel
  obtain ⟨records, hrecords⟩ := exists_hydrate_records hread
  obtain ⟨harray, -, hholds⟩ := compile_keeps_slots hr hrecords
  exact ⟨r, records, hr, hrecords, harray, hholds hdistinct⟩

/-- The phones take the entry of the number of users. -/
theorem Compiler.compile_loses_count : ∃ r records,
    Sample.compiler.compile Sample.sharedPhones [] = .ok r ∧
      hydrate r.hydrationPlan .record Sample.sharedRows = .ok (.records records) ∧
        ∃ record, records.Reaches record ∧
          ∃ fs, record.toValue = .object fs ∧ ¬Fields.Owns fs record.held := by
  obtain ⟨r, hr, hmixed, next, hnext, hmode, hplan, hrecords⟩ : ∃ r,
      Sample.compiler.compile Sample.sharedPhones [] = .ok r ∧
      (∀ n ∈ r.hydrationPlan.nodes, n.component = "User" → ¬r.hydrationPlan.Distinct n) ∧
      ∃ next, (Hydrator.new r.hydrationPlan .record).pushAll Sample.sharedRows = .ok next ∧
        next.mode = .record ∧ next.plan = r.hydrationPlan ∧
          (rootCollection next.plan next.forest).records.map (·.component) = ["User"] := by
    decide +kernel
  have hhydrate : hydrate r.hydrationPlan .record Sample.sharedRows =
      .ok (.records (rootCollection next.plan next.forest)) := by
    rw [hydrate, hnext]
    simp only [bind, Except.bind, pure, Except.pure, Hydrator.finish, hmode]
  obtain ⟨p, hp, hr'⟩ := Except.bind_eq_ok.1 hr
  cases hr'
  obtain ⟨-, hmade, -⟩ := (plan_isTree (boundPlan_eq_ok.1 hp).1).hydrate_records hhydrate
  obtain ⟨record, hrecord, hcomponent⟩ := List.mem_map.1
    (hrecords ▸ List.mem_singleton_self "User" :
      "User" ∈ (rootCollection next.plan next.forest).records.map (·.component))
  obtain ⟨n, hn, row, -, hat⟩ := hmade record (.top hrecord)
  refine ⟨_, _, hr, hhydrate, record, .top hrecord, _, record.toValue_eq, ?_⟩
  rw [hat.owns_toValue]
  exact hmixed n hn (hat.component.symm.trans hcomponent)

end ObjectQuery
