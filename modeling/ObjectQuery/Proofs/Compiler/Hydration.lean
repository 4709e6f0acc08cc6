import ObjectQuery.Proofs.Columns.Outputs
import ObjectQuery.Proofs.Hydration.Reading
import ObjectQuery.Proofs.Hydration.Selected
import ObjectQuery.Proofs.Sql.Scope

/-! # Hydration of compiled queries

The result columns that a hydration plan reads are those of the statement it is compiled with.

* `HydrationPlan.mem_outputs_of_mem`: what is read at a node is selected;
* `Compiler.compile_hydrates`: rows with all columns of the select list are hydrated. -/

namespace ObjectQuery

open Sql

variable {c : Compiler} {T : Text} {values : List Value} {r : CompiledQuery} {p : QueryPlan}
  {f : SelectedField} {n : HydrationNode} {j : JoinNode} {i : Nat} {output : String} {d : Dialect}

/-! ## Names of the select list -/

theorem QueryPlan.mem_outputs_selectStatement :
    output ∈ (p.selectStatement d).outputs ↔ output ∈ p.outputs := by
  have hitems : (p.selectStatement d).items = SelectItem.items p.aliases true p.clauses.select := by
    rw [selectStatement]
    split <;> exact toSelect_items
  have hnames : output ∈ (p.selectStatement d).outputs ↔
      some output ∈ (p.selectStatement d).items.map (·.name) := List.mem_map.symm
  rw [hnames, hitems, map_name_items, outputs, List.mem_map, List.mem_map]
  simp only [Option.some.injEq]

theorem QueryPlan.output_mem_outputs (h : .field f ∈ p.clauses.select) : f.output ∈ p.outputs :=
  List.mem_map_of_mem (f := (·.outputName p.aliases)) h

/-! ## What a hydration plan reads -/

namespace HydrationPlan

/-- The values of the node of a join are columns of its alias that are selected. -/
theorem exists_of_mem_nodeAt {b : FieldBinding}
    (h : b ∈ (nodeAt p i j).identifier ∨ b ∈ (nodeAt p i j).fields) :
    ∃ f ∈ selectedFields p.clauses.select j.id, b = ⟨f.field, f.output⟩ := by
  rcases h with h | h
  · rw [identifier_nodeAt] at h
    split at h
    · obtain ⟨f, hf, rfl⟩ := List.mem_map.1 h
      exact ⟨f, (List.mem_filter.1 hf).1, rfl⟩
    · cases h
  · obtain ⟨f, hf, rfl⟩ := List.mem_map.1 h
    exact ⟨f, hf, rfl⟩

theorem exists_of_indexBy_nodeAt (h : (nodeAt p i j).indexBy = some output) :
    ∃ f ∈ selectedFields p.clauses.select j.id, output = f.output := by
  rw [indexBy_nodeAt] at h
  obtain ⟨f, hf, rfl⟩ := Option.map_eq_some_iff.1 h
  exact ⟨f, (List.mem_filter.1 (List.mem_of_getLast? hf)).1, rfl⟩

theorem mem_outputs_of_mem_aggregates {b : FieldBinding} (h : b ∈ (nodeAt p i j).aggregates) :
    b.output ∈ p.outputs := by
  obtain ⟨e, he, rfl⟩ := List.mem_map.1 h
  obtain ⟨item, hitem, hbinding⟩ := List.mem_filterMap.1 (List.mem_filter.1 he).1
  cases item with
  | field => cases hbinding
  | expression =>
    cases hbinding
    exact List.mem_map_of_mem (f := (·.outputName p.aliases)) hitem

/-- What is read at a node is selected. -/
theorem mem_outputs_of_mem (hn : n ∈ (ofQueryPlan p).nodes) (ho : output ∈ n.outputs) :
    output ∈ p.outputs := by
  obtain ⟨i, hi⟩ := List.mem_iff_getElem?.1 hn
  obtain ⟨j, -, rfl⟩ := exists_of_getElem?_ofQueryPlan hi
  have hfield {f : SelectedField} (hf : f ∈ selectedFields p.clauses.select j.id) :
      f.output ∈ p.outputs :=
    p.output_mem_outputs (ClauseSet.mem_fieldsOf.1 (mem_fieldsOf_of_mem_selectedFields hf)).1
  rcases List.mem_append.1 ho with ho | ho
  · obtain ⟨b, hb, rfl⟩ := List.mem_map.1 ho
    rcases List.mem_append.1 hb with hb | hb
    · obtain ⟨f, hf, rfl⟩ := exists_of_mem_nodeAt (List.mem_append.1 hb)
      exact hfield hf
    · exact mem_outputs_of_mem_aggregates hb
  · obtain ⟨f, hf, rfl⟩ := exists_of_indexBy_nodeAt (Option.mem_toList.1 ho)
    exact hfield hf

end HydrationPlan

/-! ## Compiled queries -/

namespace Sample

/-- Rows with a name that is missing, and with a column besides. -/
def shoutedRows : List Row :=
  [[("u__id", .int 1), ("u__0", .string "ANN")],
    [("u__0", .null), ("n", .int 5), ("u__id", .int 2)]]

theorem shoutedRows_reads : ∀ row ∈ shoutedRows, ∀ output ∈ ["u__id", "u__0"],
    (Fields.get? row output).isSome = true := by decide

end Sample

/-- A compiled query has the hydration plan that fits its statement: every result column that is
read at a node is called like an item of the select list, so that rows which have a value for every
item are hydrated, whatever the mode. -/
theorem Compiler.compile_hydrates (h : c.compile T values = .ok r) :
    ∃ p, plan c.toSurroundings T = .ok p ∧
      r.toStatement = (p.selectStatement c.dialect).statement c.style values ∧
      (∀ n ∈ r.hydrationPlan.nodes, ∀ output ∈ n.outputs,
        output ∈ (p.selectStatement c.dialect).outputs) ∧
      ∀ mode rows, (∀ row ∈ rows, ∀ output ∈ (p.selectStatement c.dialect).outputs,
          (Fields.get? row output).isSome = true) →
        ∃ result, hydrate r.hydrationPlan mode rows = .ok result := by
  obtain ⟨p, hp, hr⟩ := Except.bind_eq_ok.1 h
  cases hr
  have hread : ∀ n ∈ (HydrationPlan.ofQueryPlan p).nodes, ∀ output ∈ n.outputs,
      output ∈ (p.selectStatement c.dialect).outputs := fun n hn output ho =>
    QueryPlan.mem_outputs_selectStatement.2 (HydrationPlan.mem_outputs_of_mem hn ho)
  refine ⟨p, (boundPlan_eq_ok.1 hp).1, rfl, hread, fun mode rows hrows => ?_⟩
  exact HydrationPlan.hydrate_eq_ok
    (fun row hrow n hn output ho => hrows row hrow output (hread n hn output ho)) mode

/-- Users are hydrated from their keys and their names. -/
theorem Compiler.compile_hydrates_shouted : ∃ r,
    Sample.compiler.compile Sample.shouted [] = .ok r ∧
      ∀ mode, ∃ result, hydrate r.hydrationPlan mode Sample.shoutedRows = .ok result := by
  obtain ⟨p, hp, hcount, houtputs⟩ := Sample.plan_shouted
  have hr : Sample.compiler.compile Sample.shouted [] = .ok _ := compile_of_plan hp hcount
  obtain ⟨q, hq, -, -, hhydrate⟩ := compile_hydrates hr
  cases Except.ok.inj (hp.symm.trans hq)
  refine ⟨_, hr, fun mode => hhydrate mode _ fun row hrow output ho => ?_⟩
  have ho := QueryPlan.mem_outputs_selectStatement.1 ho
  rw [houtputs] at ho
  exact Sample.shoutedRows_reads row hrow output ho

end ObjectQuery
