import ObjectQuery.Proofs.Columns.Names
import ObjectQuery.Proofs.Compiler.Placeholders
import ObjectQuery.Proofs.Resolve.Numbering

/-! # Result columns of a plan

A column that is selected again gets a number at its end, and an expression is called by its number.
Nothing keeps these numbers apart from what the columns of a schema are called: a column `rank__2`
meets the second `rank`, and a column `0` the first expression. Apart from that no two result columns
of a plan bear one name.

* `ResultColumn`: what a result column stands for, and `ResultColumn.label` its name;
* `ClauseSet.columnsUnnumbered_iff`: when the columns of an alias bear different names;
* `plan_outputs`: when the result columns of a plan have different names. -/

namespace ObjectQuery

variable {env : Surroundings} {T : Text} {p : QueryPlan} {names : AliasNames} {c : ClauseSet}
  {items : List SelectItem} {earlier : List (AliasId × String)} {i o : AliasId} {column : String}
  {k n m : Nat}

/-- The names of the result columns. -/
def QueryPlan.outputs (p : QueryPlan) : List String :=
  p.clauses.select.map (·.outputName p.aliases)

/-! ## What result columns stand for -/

/-- A result column: an occurrence of a column in the select list, counted from one, or an
expression. -/
inductive ResultColumn
  | field (owner : AliasId) (column : String) (occurrence : Nat)
  | expression (owner : AliasId) (ordinal : Nat)
deriving DecidableEq

namespace ResultColumn

/-- The alias that a result column belongs to. -/
def owner : ResultColumn → AliasId
  | field owner .. | expression owner _ => owner

/-- What a result column is called besides its alias. -/
def tail : ResultColumn → String
  | field _ column n => if n = 1 then column else column ++ "__" ++ toString n
  | expression _ ordinal => toString ordinal

/-- The name of a result column. -/
def label (names : AliasNames) (r : ResultColumn) : String := names.get r.owner ++ "__" ++ r.tail

end ResultColumn

/-- What the result columns of a select list stand for; `earlier` are the columns before. -/
def resultColumnsFrom : List (AliasId × String) → List SelectItem → List ResultColumn
  | _, [] => []
  | earlier, .field f :: items =>
    .field f.owner f.column (earlier.count (f.owner, f.column) + 1) ::
      resultColumnsFrom ((f.owner, f.column) :: earlier) items
  | earlier, .expression owner ordinal _ _ :: items =>
    .expression owner ordinal :: resultColumnsFrom earlier items

namespace ClauseSet

/-- What the result columns stand for. -/
def resultColumns (c : ClauseSet) : List ResultColumn := resultColumnsFrom [] c.select

/-- How often a column is selected. -/
def times (c : ClauseSet) (id : AliasId) (column : String) : Nat :=
  c.select.countP (·.isField id column)

end ClauseSet

theorem mem_resultColumnsFrom_field : .field i column n ∈ resultColumnsFrom earlier items ↔
    earlier.count (i, column) < n ∧
      n ≤ earlier.count (i, column) + items.countP (·.isField i column) := by
  induction items generalizing earlier with
  | nil =>
    simp only [resultColumnsFrom, List.not_mem_nil, List.countP_nil, false_iff]
    omega
  | cons item items ih =>
    cases item with
    | field f =>
      rw [resultColumnsFrom, List.mem_cons, ih, List.countP_cons, SelectItem.isField_field,
        List.count_cons]
      by_cases hf : (f.owner, f.column) = (i, column)
      · obtain ⟨rfl, rfl⟩ := Prod.mk.inj hf
        simp only [ResultColumn.field.injEq, true_and, beq_self_eq_true, if_true]
        omega
      · have hne : ¬ResultColumn.field i column n =
            .field f.owner f.column (earlier.count (f.owner, f.column) + 1) := by
          rintro ⟨⟩
          exact hf rfl
        simp only [hne, false_or, beq_eq_false_iff_ne.2 hf, Bool.false_eq_true, if_false, add_zero]
    | expression =>
      rw [resultColumnsFrom, List.mem_cons, ih, List.countP_cons]
      simp only [reduceCtorEq, false_or, SelectItem.isField, SelectItem.field?, Option.any_none,
        Bool.false_eq_true, if_false, add_zero]

theorem mem_resultColumnsFrom_expression : .expression o k ∈ resultColumnsFrom earlier items ↔
    ∃ e name, .expression o k e name ∈ items := by
  induction items generalizing earlier with
  | nil => simp [resultColumnsFrom]
  | cons item items ih =>
    cases item with
    | field f => simp [resultColumnsFrom, ih]
    | expression => simp [resultColumnsFrom, ih, exists_or]

theorem ClauseSet.mem_resultColumns_field :
    .field i column n ∈ c.resultColumns ↔ 1 ≤ n ∧ n ≤ c.times i column := by
  rw [resultColumns, mem_resultColumnsFrom_field, List.count_nil, zero_add]
  exact Iff.rfl

theorem ClauseSet.mem_resultColumns_expression :
    .expression o k ∈ c.resultColumns ↔ c.Lists o k :=
  mem_resultColumnsFrom_expression

theorem ClauseSet.mem_resultColumns_of_field {f : SelectedField} (h : .field f ∈ c.select) :
    .field f.owner f.column 1 ∈ c.resultColumns :=
  mem_resultColumns_field.2 ⟨le_rfl, List.countP_pos_iff.2 ⟨_, h, beq_self_eq_true (f.owner, f.column)⟩⟩

theorem ClauseSet.isSelected_iff : c.isSelected i column = true ↔ 1 ≤ c.times i column := by
  rw [isSelected, List.any_eq_true, times, Nat.succ_le_iff, List.countP_pos_iff]

theorem nodup_resultColumnsFrom (h : (expressionOrdinals items).Nodup) :
    (resultColumnsFrom earlier items).Nodup := by
  induction items generalizing earlier with
  | nil => exact List.nodup_nil
  | cons item items ih =>
    cases item with
    | field f =>
      refine List.nodup_cons.2 ⟨fun hmem => ?_, ih h⟩
      -- an occurrence that is yet to come has a higher number
      have := (mem_resultColumnsFrom_field.1 hmem).1
      rw [List.count_cons_self] at this
      omega
    | expression o k e name =>
      obtain ⟨hk, h⟩ := List.nodup_cons.1 h
      refine List.nodup_cons.2 ⟨fun hmem => hk ?_, ih h⟩
      obtain ⟨e', name', hmem⟩ := mem_resultColumnsFrom_expression.1 hmem
      exact List.mem_filterMap.2 ⟨_, hmem, rfl⟩

/-! ## Names of result columns -/

/-- The name of a column before it is numbered. -/
def columnLabel (names : AliasNames) (r : AliasId × String) : String := names.get r.1 ++ "__" ++ r.2

theorem count_map_of_inj {α β : Type} [BEq α] [LawfulBEq α] [BEq β] [LawfulBEq β] {f : α → β}
    {xs : List α} {x : α} (h : ∀ y ∈ xs, f y = f x → y = x) : (xs.map f).count (f x) = xs.count x := by
  rw [List.count_eq_countP, List.countP_map, List.count_eq_countP]
  refine List.countP_congr fun y hy => ?_
  simp only [Function.comp_apply, beq_iff_eq]
  exact ⟨h y hy, congrArg f⟩

theorem fieldOutput_eq_label {labels : List String} :
    fieldOutput (columnLabel names (i, column)) labels =
      (ResultColumn.field i column (labels.count (columnLabel names (i, column)) + 1)).label
        names := by
  simp only [fieldOutput, ResultColumn.label, ResultColumn.tail, ResultColumn.owner]
  by_cases hn : labels.count (columnLabel names (i, column)) + 1 = 1
  · rw [if_pos hn, if_pos hn, columnLabel]
  · rw [if_neg hn, if_neg hn, columnLabel]
    simp only [String.append_assoc]

section
variable {P : Set AliasId} (hinj : ∀ r s : AliasId × String, r.1 ∈ P → s.1 ∈ P →
  columnLabel names r = columnLabel names s → r = s)
include hinj

/-- The result columns are named after what they stand for. -/
theorem map_outputName_nameOutputsFrom (he : ∀ r ∈ earlier, r.1 ∈ P)
    (hi : ∀ f, .field f ∈ items → f.owner ∈ P) :
    (nameOutputsFrom names (earlier.map (columnLabel names)) items).map (·.outputName names) =
      (resultColumnsFrom earlier items).map (·.label names) := by
  induction items generalizing earlier with
  | nil => rfl
  | cons item items ih =>
    have hrest : ∀ f, .field f ∈ items → f.owner ∈ P := fun f hf => hi f (List.mem_cons_of_mem _ hf)
    cases item with
    | field f =>
      have hf : f.owner ∈ P := hi f List.mem_cons_self
      -- labels are counted, and columns of one label are one column
      have hcount : (earlier.map (columnLabel names)).count (columnLabel names (f.owner, f.column)) =
          earlier.count (f.owner, f.column) :=
        count_map_of_inj fun r hr => hinj r _ (he r hr) hf
      rw [nameOutputsFrom, resultColumnsFrom, List.map_cons, List.map_cons, ← hcount]
      refine congrArg₂ List.cons fieldOutput_eq_label ?_
      exact @ih ((f.owner, f.column) :: earlier) (List.forall_mem_cons.2 ⟨hf, he⟩) hrest
    | expression => exact congrArg (List.cons _) (ih he hrest)

end

/-- Naming the result columns does not change what they stand for. -/
theorem resultColumnsFrom_nameOutputsFrom {labels : List String} :
    resultColumnsFrom earlier (nameOutputsFrom names labels items) =
      resultColumnsFrom earlier items := by
  induction items generalizing earlier labels with
  | nil => rfl
  | cons item items ih =>
    cases item with
    | field f => exact congrArg (List.cons _) ih
    | expression => exact congrArg (List.cons _) ih

/-! ## Columns that bear one name -/

namespace ResultColumn

/-- Two columns of an alias are called alike when the one is called like a later occurrence of the
other. -/
theorem tail_field_eq {x y : String} (h : (field i x m).tail = (field o y n).tail) :
    (x = y ∧ m = n) ∨ (n ≠ 1 ∧ m = 1 ∧ x = y ++ "__" ++ toString n) ∨
      (m ≠ 1 ∧ n = 1 ∧ y = x ++ "__" ++ toString m) := by
  simp only [tail] at h
  split at h <;> split at h
  · rename_i hm hn
    exact .inl ⟨h, hm.trans hn.symm⟩
  · rename_i hm hn
    exact .inr (.inl ⟨hn, hm, h⟩)
  · rename_i hm hn
    exact .inr (.inr ⟨hm, hn, h.symm⟩)
  · exact .inl (suffixed_inj h)

/-- A column is called like an expression when it is called by the number of the expression. -/
theorem tail_expression_eq (h : (field i column n).tail = (expression o k).tail) :
    n = 1 ∧ column = toString k := by
  simp only [tail] at h
  split at h
  · rename_i hn
    exact ⟨hn, h⟩
  · exact absurd h.symm toString_ne_glued

end ResultColumn

/-- No column that is selected is called like a later occurrence of another one, or by the number of
an expression of its alias. -/
structure ClauseSet.ColumnsUnnumbered (c : ClauseSet) : Prop where
  occurrence : ∀ id column n, 2 ≤ n → n ≤ c.times id column →
    c.isSelected id (column ++ "__" ++ toString n) = false
  ordinal : ∀ o k, c.Lists o k → c.isSelected o (toString k) = false

theorem ClauseSet.ColumnsUnnumbered.not_field_field {x y : String} (h : c.ColumnsUnnumbered)
    (hx : .field i x 1 ∈ c.resultColumns) (hy : .field i y n ∈ c.resultColumns) (hn : n ≠ 1) :
    x ≠ y ++ "__" ++ toString n := by
  rintro rfl
  obtain ⟨h1, hle⟩ := mem_resultColumns_field.1 hy
  have hselected := isSelected_iff.2 (mem_resultColumns_field.1 hx).2
  rw [h.occurrence i y n (by omega) hle] at hselected
  cases hselected

theorem ClauseSet.ColumnsUnnumbered.not_field_expression (h : c.ColumnsUnnumbered)
    (hx : .field i column 1 ∈ c.resultColumns) (hk : .expression i k ∈ c.resultColumns) :
    column ≠ toString k := by
  rintro rfl
  have hselected := isSelected_iff.2 (mem_resultColumns_field.1 hx).2
  rw [h.ordinal i k (mem_resultColumns_expression.1 hk)] at hselected
  cases hselected

/-- The result columns of one alias are called differently just when no column that is selected has a
number for its name or at its end that another one is given. -/
theorem ClauseSet.columnsUnnumbered_iff : c.ColumnsUnnumbered ↔
    ∀ r ∈ c.resultColumns, ∀ s ∈ c.resultColumns, r.owner = s.owner → r.tail = s.tail → r = s := by
  constructor
  · rintro hc (⟨i, x, m⟩ | ⟨o, k⟩) hr (⟨j, y, n⟩ | ⟨o', k'⟩) hs ⟨⟩ ht
    · rcases ResultColumn.tail_field_eq ht with ⟨rfl, rfl⟩ | ⟨hn, rfl, hx⟩ | ⟨hm, rfl, hy⟩
      · rfl
      · exact absurd hx (hc.not_field_field hr hs hn)
      · exact absurd hy (hc.not_field_field hs hr hm)
    · obtain ⟨rfl, hx⟩ := ResultColumn.tail_expression_eq ht
      exact absurd hx (hc.not_field_expression hr hs)
    · obtain ⟨rfl, hx⟩ := ResultColumn.tail_expression_eq ht.symm
      exact absurd hx (hc.not_field_expression hs hr)
    · rw [toList_toString_inj (congrArg String.toList ht)]
  · intro hinj
    have hone {i : AliasId} {column : String} (hs : c.isSelected i column = true) :
        ResultColumn.field i column 1 ∈ c.resultColumns :=
      mem_resultColumns_field.2 ⟨le_rfl, isSelected_iff.1 hs⟩
    refine ⟨fun i x n hn hle => ?_, fun o k hk => ?_⟩
    · refine Bool.eq_false_of_not_eq_true fun hs => ?_
      have heq := hinj _ (hone hs) (.field i x n) (mem_resultColumns_field.2 ⟨by omega, hle⟩) rfl
        (by rw [ResultColumn.tail, ResultColumn.tail, if_pos rfl, if_neg (by omega)])
      exact glued_ne_self (ResultColumn.field.inj heq).2.1
    · refine Bool.eq_false_of_not_eq_true fun hs => ?_
      cases hinj _ (hone hs) (.expression o k) (mem_resultColumns_expression.2 hk) rfl rfl

/-! ## Plans -/

theorem PlanOver.resultColumn_owner_lt {N : Nat} {r : ResultColumn} (h : PlanOver env N p)
    (hr : r ∈ p.clauses.resultColumns) : r.owner < N := by
  cases r with
  | field i column n =>
    obtain ⟨h1, hle⟩ := ClauseSet.mem_resultColumns_field.1 hr
    obtain ⟨item, hitem, hf⟩ := List.countP_pos_iff.1 (Nat.lt_of_lt_of_le h1 hle)
    cases item with
    | field f =>
      rw [SelectItem.isField_field, beq_iff_eq] at hf
      obtain ⟨rfl, -⟩ := Prod.mk.inj hf
      exact h.owner_lt hitem
    | expression => cases hf
  | expression o k =>
    obtain ⟨e, name, hitem⟩ := ClauseSet.mem_resultColumns_expression.1 hr
    exact h.owner_lt hitem

theorem outputs_eq (h : plan env T = .ok p) :
    p.outputs = p.clauses.resultColumns.map (·.label p.aliases) := by
  obtain ⟨N, hp⟩ := plan_over h
  obtain ⟨c, hc, -⟩ := plan_select h
  have hselect : p.clauses.select = nameOutputsFrom p.aliases [] c.select := by rw [hc]; rfl
  have hcolumns : p.clauses.resultColumns = c.resultColumns := by
    rw [ClauseSet.resultColumns, hselect, resultColumnsFrom_nameOutputsFrom]
    rfl
  have howner (f : SelectedField) (hf : .field f ∈ c.select) : f.owner < N := by
    have hmem := ClauseSet.mem_resultColumns_of_field hf
    rw [← hcolumns] at hmem
    exact hp.resultColumn_owner_lt hmem
  have hinj (r s : AliasId × String) (hr : r.1 < N) (hs : s.1 < N)
      (he : columnLabel p.aliases r = columnLabel p.aliases s) : r = s :=
    Prod.ext_iff.2 (hp.column_inj hr hs he)
  rw [hcolumns, QueryPlan.outputs, hselect]
  show (nameOutputsFrom p.aliases ([].map (columnLabel p.aliases)) c.select).map _ = _
  exact map_outputName_nameOutputsFrom (P := {a | a < N}) hinj nofun howner

theorem nodup_resultColumns (h : plan env T = .ok p) : p.clauses.resultColumns.Nodup := by
  obtain ⟨c, hc, hordinals⟩ := plan_select h
  rw [hc]
  show (resultColumnsFrom [] (nameOutputsFrom p.aliases [] c.select)).Nodup
  rw [resultColumnsFrom_nameOutputsFrom]
  exact nodup_resultColumnsFrom hordinals

namespace Sample

/-- A key, and an expression besides. -/
def shouted : Text := "SELECT u.id, UPPER(u.name) FROM User u".toList

theorem plan_shouted : ∃ p, plan compiler.toSurroundings shouted = .ok p ∧ p.placeholders = 0 ∧
    p.outputs = ["u__id", "u__0"] := by decide +kernel

/-- Sheets with a column that is called by its position. -/
def sheets : Catalog where
  name := none
  components := [
    { name := "Sheet"
      table := "sheets"
      columns := [⟨"0", some "id", "string", true⟩]
      relations := []
      inheritance := none
      orderBy := none }]
  valid := by decide +kernel

/-- The key of sheets, and an expression besides. -/
def positions : Text := "SELECT s.id, UPPER(s.id) FROM Sheet s".toList

end Sample

/-- The result columns of a plan have different names just when no column that is selected is called
like a later occurrence of another one, or by the number of an expression of its alias. -/
theorem plan_outputs (h : plan env T = .ok p) : p.outputs.Nodup ↔ p.clauses.ColumnsUnnumbered := by
  obtain ⟨N, hp⟩ := plan_over h
  rw [outputs_eq h, List.nodup_map_iff_inj_on (nodup_resultColumns h),
    ClauseSet.columnsUnnumbered_iff]
  constructor
  · intro hinj r hr s hs ho ht
    exact hinj r hr s hs (by rw [ResultColumn.label, ho, ht]; rfl)
  · intro hinj r hr s hs he
    obtain ⟨ho, ht⟩ := hp.column_inj (hp.resultColumn_owner_lt hr) (hp.resultColumn_owner_lt hs) he
    exact hinj r hr s hs ho ht

/-- No column of users is called by a number. -/
theorem plan_outputs_shouted : ∃ p,
    plan Sample.compiler.toSurroundings Sample.shouted = .ok p ∧ p.outputs = ["u__id", "u__0"] ∧
      p.clauses.ColumnsUnnumbered := by
  obtain ⟨p, hp, -, houtputs⟩ := Sample.plan_shouted
  refine ⟨p, hp, houtputs, (plan_outputs hp).1 ?_⟩
  rw [houtputs]
  decide

/-- The column `0` and the first expression come under one name. -/
theorem outputs_repeat_position : ∃ p,
    plan ⟨Sample.sheets.describe, {}⟩ Sample.positions = .ok p ∧ p.outputs = ["s__0", "s__0"] ∧
      ¬p.outputs.Nodup := by
  obtain ⟨p, hp, houtputs⟩ : ∃ p, plan ⟨Sample.sheets.describe, {}⟩ Sample.positions = .ok p ∧
      p.outputs = ["s__0", "s__0"] := by decide +kernel
  refine ⟨p, hp, houtputs, ?_⟩
  rw [houtputs]
  decide

end ObjectQuery
