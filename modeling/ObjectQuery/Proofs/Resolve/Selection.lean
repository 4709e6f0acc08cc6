import ObjectQuery.Proofs.Plan.Reads
import ObjectQuery.Proofs.Resolve.Bindings

/-! # Completing and naming a select list

A completed select list has the expressions of the list before, in the same order, and columns of
the schema besides. Naming the result columns changes nothing else.

* `completeSelection_spec`, `nameOutputs_selectExprs`, `nameOutputs_fields`. -/

namespace ObjectQuery

variable {env : Surroundings} {graph : JoinGraph} {c : ClauseSet} {names : AliasNames} {n : Nat}

theorem SelectItem.isField_field {f : SelectedField} {id : AliasId} {column : String} :
    (SelectItem.field f).isField id column = ((f.owner, f.column) == (id, column)) := rfl

theorem SelectItem.mem_filterMap_field? {items : List SelectItem} {f : SelectedField} :
    f ∈ items.filterMap (·.field?) ↔ .field f ∈ items := by
  rw [List.mem_filterMap]
  constructor
  · rintro ⟨i, hi, hf⟩
    cases i with
    | field =>
      cases hf
      exact hi
    | expression => cases hf
  · exact fun hf => ⟨_, hf, rfl⟩

theorem filterMap_expr?_fields (fs : List SelectedField) :
    (fs.map SelectItem.field).filterMap (·.expr?) = [] := by
  rw [List.filterMap_map]
  exact List.filterMap_eq_nil_iff.2 fun _ _ => rfl

theorem filterMap_expr?_filter (items : List SelectItem) :
    (items.filter (·.field?.isNone)).filterMap (·.expr?) = items.filterMap (·.expr?) := by
  rw [List.filterMap_filter]
  refine List.filterMap_congr fun i _ => ?_
  cases i <;> rfl

/-- What is missing from a select list are columns of nodes. -/
theorem missingFields_spec (hd : ∀ j ∈ graph.nodes, j.Derived env) (items : List SelectItem)
    (required : List (AliasId × String)) :
    (missingFields graph items required).filterMap (·.expr?) = [] ∧
      ∀ f ∈ (missingFields graph items required).filterMap (·.field?), env.HasColumn f.column := by
  induction required generalizing items with
  | nil => exact ⟨rfl, nofun⟩
  | cons r required ih =>
    obtain ⟨id, column⟩ := r
    simp only [missingFields]
    split
    · exact ih items
    · rename_i x hx
      split
      · exact ih items
      · obtain ⟨ih1, ih2⟩ := ih (items ++ [.ofColumn id x true])
        refine ⟨ih1, fun f hf => ?_⟩
        rcases List.mem_cons.1 hf with rfl | hf
        · obtain ⟨j, hj, hx⟩ := Option.bind_eq_some_iff.1 hx
          exact (hd j (List.mem_of_find?_eq_some hj)).described.hasColumn
            (Component.mem_of_column? hx)
        · exact ih2 f hf

/-- The items of a completed select list are those of the list, and those that were missing. -/
theorem mem_select_completeSelection {emitted : List AliasId} {i : SelectItem} :
    i ∈ (completeSelection graph emitted c).select ↔
      i ∈ c.select ∨ i ∈ missingFields graph c.select (requiredFields graph c) := by
  rw [← List.mem_append]
  simp only [completeSelection]
  generalize c.select ++ missingFields graph c.select (requiredFields graph c) = all
  cases i with
  | field f =>
    simp only [List.mem_append, List.mem_map, SelectItem.field.injEq, exists_eq_right,
      List.mem_mergeSort, List.mem_filter, SelectItem.field?, Option.isNone_some,
      Bool.false_eq_true, and_false, or_false]
    exact SelectItem.mem_filterMap_field?
  | expression =>
    simp only [List.mem_append, List.mem_map, reduceCtorEq, and_false, exists_false, false_or,
      List.mem_filter, SelectItem.field?, Option.isNone_none, and_true]

/-- Completing a select list keeps its expressions and adds columns of the schema. -/
theorem completeSelection_spec (emitted : List AliasId) (hd : ∀ j ∈ graph.nodes, j.Derived env)
    (hf : ∀ f ∈ c.select.filterMap (·.field?), env.HasColumn f.column) :
    (completeSelection graph emitted c).selectExprs = c.selectExprs ∧
      ∀ f ∈ (completeSelection graph emitted c).select.filterMap (·.field?),
        env.HasColumn f.column := by
  obtain ⟨hexprs, hfields⟩ := missingFields_spec hd c.select (requiredFields graph c)
  constructor
  · simp only [ClauseSet.selectExprs, completeSelection, List.filterMap_append,
      filterMap_expr?_fields, filterMap_expr?_filter, hexprs, List.append_nil, List.nil_append]
  · intro f hmem
    obtain ⟨i, hi, hif⟩ := List.mem_filterMap.1 hmem
    rcases mem_select_completeSelection.1 hi with hi | hi
    · exact hf f (List.mem_filterMap.2 ⟨i, hi, hif⟩)
    · exact hfields f (List.mem_filterMap.2 ⟨i, hi, hif⟩)

/-! ## Names -/

/-- A select item whose column is named after the occurrence it belongs to. -/
structure SelectItem.Renamed (names : AliasNames) (i i' : SelectItem) : Prop where
  expr : i'.expr? = i.expr?
  reads : i'.reads = i.reads
  field : ∀ f' ∈ i'.field?, f'.Named names ∧ ∃ f ∈ i.field?, f' = { f with output := f'.output }

theorem nameOutputsFrom_spec (names : AliasNames) (earlier : List String)
    (items : List SelectItem) :
    List.Forall₂ (SelectItem.Renamed names) items (nameOutputsFrom names earlier items) := by
  induction items generalizing earlier with
  | nil => exact .nil
  | cons i items ih =>
    cases i with
    | field f =>
      refine .cons ⟨rfl, rfl, ?_⟩ (ih _)
      rintro _ ⟨⟩
      exact ⟨⟨earlier, rfl⟩, f, rfl, rfl⟩
    | expression o k e name => exact .cons ⟨rfl, rfl, nofun⟩ (ih _)

theorem filterMap_expr?_renamed {is js : List SelectItem}
    (h : List.Forall₂ (SelectItem.Renamed names) is js) :
    js.filterMap (·.expr?) = is.filterMap (·.expr?) := by
  induction h with
  | nil => rfl
  | cons hij _ ih => rw [List.filterMap_cons, List.filterMap_cons, hij.expr, ih]

theorem nameOutputs_selectExprs (names : AliasNames) (c : ClauseSet) :
    (nameOutputs names c).selectExprs = c.selectExprs :=
  filterMap_expr?_renamed (nameOutputsFrom_spec names [] c.select)

theorem nameOutputs_fields {f : SelectedField}
    (h : f ∈ (nameOutputs names c).select.filterMap (·.field?)) :
    f.Named names ∧ ∃ f' ∈ c.select.filterMap (·.field?), f'.column = f.column := by
  obtain ⟨i', hi', hf⟩ := List.mem_filterMap.1 h
  obtain ⟨i, hi, hr⟩ := exists_left_of_mem (nameOutputsFrom_spec names [] c.select) hi'
  obtain ⟨hn, f', hf', he⟩ := hr.field f hf
  exact ⟨hn, f', List.mem_filterMap.2 ⟨i, hi, hf'⟩, (congrArg SelectedField.column he).symm⟩

theorem nameOutputs_below (names : AliasNames) (h : c.Below n) : (nameOutputs names c).Below n := by
  refine ⟨fun i' hi' => ?_, h.filter, h.groupBy, h.having, h.orderBy⟩
  obtain ⟨i, hi, hr⟩ := exists_left_of_mem (nameOutputsFrom_spec names [] c.select) hi'
  rw [hr.reads]
  exact h.select i hi

/-- Naming the result columns keeps where the clauses come from. -/
theorem ClausesFrom.nameOutputs {R : Origin} {T : Text} {base : Nat} {q : ClauseTexts}
    (names : AliasNames) (h : ClausesFrom env R T base q c) :
    ClausesFrom env R T base q (nameOutputs names c) := by
  refine ⟨nameOutputs_selectExprs names c ▸ h.select, fun f hf => ?_, h.filter, h.groupBy,
    h.having, h.orderBy, h.directions⟩
  obtain ⟨-, f', hf', he⟩ := nameOutputs_fields hf
  exact he ▸ h.fields f' hf'

/-- So does completing the select list. -/
theorem ClausesFrom.completeSelection {R : Origin} {T : Text} {base : Nat} {q : ClauseTexts}
    {emitted : List AliasId} (hd : ∀ j ∈ graph.nodes, j.Derived env)
    (h : ClausesFrom env R T base q c) :
    ClausesFrom env R T base q (completeSelection graph emitted c) := by
  obtain ⟨he, hf⟩ := completeSelection_spec emitted hd h.fields
  exact ⟨he ▸ h.select, hf, h.filter, h.groupBy, h.having, h.orderBy, h.directions⟩

end ObjectQuery
