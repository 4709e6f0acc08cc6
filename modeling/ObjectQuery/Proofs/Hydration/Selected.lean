import ObjectQuery.Proofs.Hydration.Tree

/-! # The columns that records hold

Records hold columns under their fields. Of several columns with one field the first counts, and in a
completed select list the columns of the primary key come first.

* `ClauseSet.columns`, `ClauseSet.fieldsOf`: the columns of a select list, and those of an alias;
* `mem_selectedFields`: the columns that count;
* `keysFirst_completeSelection`: the order of a completed select list. -/

namespace ObjectQuery

open HydrationPlan

variable {g : JoinGraph} {c : ClauseSet} {names : AliasNames} {id : AliasId} {column k : String}
  {f : SelectedField} {fs kept : List SelectedField}

/-! ## The columns of an alias -/

namespace ClauseSet

/-- The columns in the select list, each with its alias, in order. -/
def columns (c : ClauseSet) : List (AliasId × String) :=
  (c.select.filterMap (·.field?)).map fun f => (f.owner, f.column)

/-- The columns of an alias in the select list, in order, with the fields they come under. -/
def fieldsOf (c : ClauseSet) (id : AliasId) : List SelectedField :=
  (c.select.filterMap (·.field?)).filter (·.owner == id)

theorem mem_fieldsOf : f ∈ c.fieldsOf id ↔ .field f ∈ c.select ∧ f.owner = id := by
  rw [fieldsOf, List.mem_filter, SelectItem.mem_filterMap_field?, beq_iff_eq]

theorem mem_columns : (id, column) ∈ c.columns ↔ ∃ f ∈ c.fieldsOf id, f.column = column := by
  simp only [columns, List.mem_map, SelectItem.mem_filterMap_field?, mem_fieldsOf, Prod.mk.injEq,
    and_assoc]

theorem columns_nameOutputs : (nameOutputs names c).columns = c.columns := by
  have hfrom (earlier : List String) (items : List SelectItem) :
      ((nameOutputsFrom names earlier items).filterMap (·.field?)).map
        (fun f => (f.owner, f.column)) =
          (items.filterMap (·.field?)).map fun f => (f.owner, f.column) := by
    induction items generalizing earlier with
    | nil => rfl
    | cons i items ih =>
      cases i with
      | field f => exact congrArg ((f.owner, f.column) :: ·) (ih _)
      | expression => exact ih _
  exact hfrom [] c.select

end ClauseSet

/-! ## The first column of a field -/

/-- The columns kept so far, with one more when its field is new. -/
def keepFirst (kept : List SelectedField) (f : SelectedField) : List SelectedField :=
  if kept.any (·.field == f.field) then kept else kept ++ [f]

theorem any_field_iff : kept.any (·.field == k) = true ↔ k ∈ kept.map (·.field) := by
  simp only [List.any_eq_true, beq_iff_eq, List.mem_map]

theorem find?_keepFirst : (keepFirst kept f ++ fs).find? (·.field == k) =
    (kept ++ f :: fs).find? (·.field == k) := by
  rw [keepFirst]
  split
  · rename_i hany
    -- what has the field of an element kept before is never found
    obtain ⟨h, hh, he⟩ := List.any_eq_true.1 hany
    rw [List.find?_append, List.find?_append, List.find?_cons]
    by_cases hk : (f.field == k) = true
    · have hsome : (kept.find? (·.field == k)).isSome = true := by
        rw [List.find?_isSome]
        exact ⟨h, hh, beq_iff_eq.2 ((beq_iff_eq.1 he).trans (beq_iff_eq.1 hk))⟩
      obtain ⟨x, hx⟩ := Option.isSome_iff_exists.1 hsome
      rw [hx, Option.some_or, Option.some_or]
    · rw [Bool.not_eq_true] at hk
      rw [hk]
  · rw [List.append_assoc, List.singleton_append]

theorem nodup_keepFirst (h : (kept.map (·.field)).Nodup) : ((keepFirst kept f).map (·.field)).Nodup := by
  rw [keepFirst]
  split
  · exact h
  · rename_i hany
    rw [any_field_iff] at hany
    rw [List.map_append, List.nodup_append_comm]
    exact List.nodup_cons.2 ⟨hany, h⟩

theorem find?_foldl_keepFirst (fs kept : List SelectedField) :
    (fs.foldl keepFirst kept).find? (·.field == k) = (kept ++ fs).find? (·.field == k) := by
  induction fs generalizing kept with
  | nil => rw [List.foldl_nil, List.append_nil]
  | cons f fs ih => rw [List.foldl_cons, ih, find?_keepFirst]

theorem nodup_foldl_keepFirst (fs : List SelectedField) (h : (kept.map (·.field)).Nodup) :
    ((fs.foldl keepFirst kept).map (·.field)).Nodup := by
  induction fs generalizing kept with
  | nil => exact h
  | cons f fs ih => exact ih (nodup_keepFirst h)

theorem nodup_selectedFields (c : ClauseSet) (id : AliasId) :
    ((selectedFields c.select id).map (·.field)).Nodup :=
  nodup_foldl_keepFirst (c.fieldsOf id) List.nodup_nil

/-- A column that counts is the first with its field. -/
theorem mem_selectedFields : f ∈ selectedFields c.select id ↔
    (c.fieldsOf id).find? (·.field == f.field) = some f := by
  have hfind : (selectedFields c.select id).find? (·.field == f.field) =
      (c.fieldsOf id).find? (·.field == f.field) := find?_foldl_keepFirst (c.fieldsOf id) []
  rw [← hfind]
  refine ⟨fun hf => ?_, List.mem_of_find?_eq_some⟩
  obtain ⟨h, hh⟩ := Option.isSome_iff_exists.1
    (List.find?_isSome.2 ⟨f, hf, beq_self_eq_true f.field⟩ :
      ((selectedFields c.select id).find? (·.field == f.field)).isSome = true)
  have he : h.field = f.field := by simpa using List.find?_some hh
  rw [hh, List.inj_on_of_nodup_map (nodup_selectedFields c id) (List.mem_of_find?_eq_some hh) hf he]

theorem mem_fieldsOf_of_mem_selectedFields (hf : f ∈ selectedFields c.select id) :
    f ∈ c.fieldsOf id :=
  List.mem_of_find?_eq_some (mem_selectedFields.1 hf)

/-- The columns of the primary key that count. -/
def heldKeys (c : ClauseSet) (id : AliasId) (component : Component) : List SelectedField :=
  (selectedFields c.select id).filter fun f => component.isKey f.column

theorem identifier_nodeAt (p : QueryPlan) (i : Nat) (j : JoinNode) : (nodeAt p i j).identifier =
    if (heldKeys p.clauses j.id j.component).length = j.component.primaryKeys.length then
      (heldKeys p.clauses j.id j.component).map fun f => ⟨f.field, f.output⟩ else [] := rfl

theorem indexBy_nodeAt (p : QueryPlan) (i : Nat) (j : JoinNode) : (nodeAt p i j).indexBy =
    ((selectedFields p.clauses.select j.id).filter fun f =>
      j.indexBy == some f.column).getLast?.map (·.output) := rfl

/-! ## The order of a completed select list -/

/-- The column belongs to the primary key of the component of its alias. -/
def JoinGraph.IsKey (g : JoinGraph) (r : AliasId × String) : Prop :=
  (g.node? r.1).any (·.component.isKey r.2) = true

/-- Among the columns of an alias those of the primary key come first. -/
def JoinGraph.KeysFirst (g : JoinGraph) (columns : List (AliasId × String)) : Prop :=
  columns.Pairwise fun r s => r.1 = s.1 → g.IsKey s → g.IsKey r

theorem rankLE_trans (a b c : Nat × Nat) (hab : rankLE a b = true) (hbc : rankLE b c = true) :
    rankLE a c = true := by
  simp only [rankLE, Bool.or_eq_true, Bool.and_eq_true, decide_eq_true_eq, beq_iff_eq] at *
  omega

theorem rankLE_total (a b : Nat × Nat) : (rankLE a b || rankLE b a) = true := by
  simp only [rankLE, Bool.or_eq_true, Bool.and_eq_true, decide_eq_true_eq, beq_iff_eq]
  omega

theorem filterMap_field?_map_field (fs : List SelectedField) (items : List SelectItem) :
    (fs.map SelectItem.field ++ items.filter (·.field?.isNone)).filterMap (·.field?) = fs := by
  have hnone : (items.filter (·.field?.isNone)).filterMap (·.field?) = [] :=
    List.filterMap_eq_nil_iff.2 fun i hi => Option.isNone_iff_eq_none.1 (List.mem_filter.1 hi).2
  rw [List.filterMap_append, hnone, List.append_nil, List.filterMap_map]
  exact List.filterMap_some

theorem rankLE_iff {a b : Nat × Nat} : rankLE a b = true ↔ a.1 < b.1 ∨ a.1 = b.1 ∧ a.2 ≤ b.2 := by
  simp only [rankLE, Bool.or_eq_true, Bool.and_eq_true, decide_eq_true_eq, beq_iff_eq]

/-- Columns in order of their ranks are in order of the joins, each time with the primary key first. -/
theorem pairwise_mergeSort_fieldRank (emitted : List AliasId) (fs : List SelectedField) :
    (fs.mergeSort fun f h => rankLE (fieldRank g emitted f) (fieldRank g emitted h)).Pairwise
      fun f h => emitted.idxOf f.owner < emitted.idxOf h.owner ∨
        emitted.idxOf f.owner = emitted.idxOf h.owner ∧
          (g.IsKey (h.owner, h.column) → g.IsKey (f.owner, f.column)) := by
  let rank := fieldRank g emitted
  have hsorted := List.pairwise_mergeSort (fun f h i => rankLE_trans (rank f) (rank h) (rank i))
    (fun f h => rankLE_total (rank f) (rank h)) fs
  refine hsorted.imp fun hle => (rankLE_iff.1 hle).imp_right fun ⟨hjoin, hrank⟩ =>
    ⟨hjoin, fun hkey => ?_⟩
  simp only [rank, fieldRank] at hrank
  rw [JoinGraph.IsKey] at hkey ⊢
  by_contra hnot
  rw [if_pos hkey, if_neg hnot] at hrank
  exact absurd hrank (by decide)

theorem keysFirst_completeSelection (emitted : List AliasId) :
    g.KeysFirst (completeSelection g emitted c).columns := by
  rw [JoinGraph.KeysFirst, ClauseSet.columns, completeSelection, filterMap_field?_map_field]
  refine List.pairwise_map.2 ((pairwise_mergeSort_fieldRank emitted _).imp fun hle howner => ?_)
  exact (hle.resolve_left fun hlt => hlt.ne (congrArg emitted.idxOf howner)).2

end ObjectQuery
