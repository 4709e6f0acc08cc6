import Mathlib.Data.List.Dedup
import ObjectQuery.Sql.Count
import ObjectQuery.Sql.Limited

/-! # What statements select

Joins are nested loops: a statement is at one row of every table at a time, and a left join that finds
no row goes on without one. Statements with groups or a limit are left out, and so is the order of the
results. What a condition or an expression means is open; a select list that is just `COUNT(*)` counts.

* `Interpretation.joined`: the joins of a statement, one loop inside the other;
* `Interpretation.combinations`: the rows that a statement is at when it selects;
* `Interpretation.results`: what it selects;
* `Interpretation.length_joined_le`: joins that find one row at most;
* `Interpretation.results_selectFrom_count`: counting the results of another statement. -/

namespace ObjectQuery
namespace Sql

/-- A row of a table: the value of every column. -/
abbrev TableRow := String → Value

/-- The rows that a statement is at, each under the name of its table. A left join that found no row
has none. -/
abbrev Combination := List (String × Option TableRow)

/-- The value of a column, null where there is no row. -/
def Combination.read (s : Combination) (qualifier column : String) : Value :=
  match s.find? (·.1 == qualifier) with
  | some (_, some row) => row column
  | _ => .null

/-- The contents of tables, and the meaning of conditions and expressions. -/
structure Interpretation where
  /-- The rows of a table. -/
  rows : String → List TableRow
  holds : Conjunct → Combination → Bool
  value : List Term → Combination → Value

/-- The name of a result column: a column that is selected without a name has its own. -/
def Item.columnName : Item → Option String
  | ⟨_, some name⟩ => some name
  | ⟨[.column _ column], none⟩ => some column
  | _ => none

/-- A result as the row of a derived table. -/
def derivedRow (items : List Item) (values : List Value) : TableRow := fun column =>
  (((items.zip values).find? (·.1.columnName == some column)).map (·.2)).getD .null

/-- The select list counts rows. -/
def countsRows : List Item → Bool
  | [⟨[.raw t], _⟩] => t == "COUNT(*)".toList
  | _ => false

namespace Interpretation

variable (I : Interpretation)

/-- The rows of a joined table that the conditions of the join hold for. -/
def partners (j : Join) (s : Combination) : List TableRow :=
  (I.rows j.table).filter fun row => j.on.all fun k => I.holds k (s ++ [(j.name, some row)])

/-- One step of a join. -/
def extended (j : Join) (s : Combination) : List Combination :=
  match j.kind, I.partners j s with
  | .left, [] => [s ++ [(j.name, none)]]
  | _, rows => rows.map fun row => s ++ [(j.name, some row)]

/-- Joins, the later ones inside the loops of the earlier. -/
def joined : List Join → Combination → List Combination
  | [], s => [s]
  | j :: js, s => (I.extended j s).flatMap (joined js)

/-- The value of a select item. -/
def itemValue : List Term → Combination → Value
  | [.column qualifier column], s => s.read qualifier column
  | terms, s => I.value terms s

/-- The values of the items of a select list. -/
def selected (items : List Item) (s : Combination) : List Value :=
  items.map fun i => I.itemValue i.terms s

/-- The results of a select list. -/
def project (distinct : Bool) (items : List Item) (ss : List Combination) : List (List Value) :=
  if countsRows items then [[.int ss.length]]
  else
    let results := ss.map (I.selected items)
    if distinct then results.dedup else results

mutual

/-- The rows that a statement is at when it selects; `none` for statements with groups or a limit. -/
def combinations : Select → Option (List Combination)
  | ⟨_, _, source, joins, filter, [], none, _, none, none⟩ =>
    (starts source).map fun ss =>
      (ss.flatMap (I.joined joins)).filter fun s => filter.all fun k => I.holds k s
  | _ => none

/-- The rows of a source. -/
def starts : Source → Option (List Combination)
  | .table table name => some ((I.rows table).map fun row => [(name, some row)])
  | .derived query name _ =>
    (combinations query).map fun ss =>
      (I.project query.distinct query.items ss).map fun values =>
        [(name, some (derivedRow query.items values))]

end

/-- What a statement selects, in some order. -/
def results (s : Select) : Option (List (List Value)) :=
  (I.combinations s).map (I.project s.distinct s.items)

/-! ## Joins -/

variable {I} {j : Join} {js : List Join} {s t : Combination}

theorem exists_of_mem_extended (h : t ∈ I.extended j s) : ∃ row?, t = s ++ [(j.name, row?)] := by
  rw [extended] at h
  split at h
  · exact ⟨none, List.mem_singleton.1 h⟩
  · obtain ⟨row, -, rfl⟩ := List.mem_map.1 h
    exact ⟨some row, rfl⟩

/-- Joins leave the rows before them as they are. -/
theorem prefix_of_mem_joined (h : t ∈ I.joined js s) : s <+: t := by
  induction js generalizing s with
  | nil => exact List.mem_singleton.1 h ▸ List.prefix_rfl
  | cons j js ih =>
    obtain ⟨u, hu, ht⟩ := List.mem_flatMap.1 h
    obtain ⟨row?, rfl⟩ := exists_of_mem_extended hu
    exact (List.prefix_append _ _).trans (ih ht)

theorem length_extended_le (h : (I.partners j s).length ≤ 1) : (I.extended j s).length ≤ 1 := by
  rw [extended]
  split
  · exact Nat.le_refl 1
  · rwa [List.length_map]

/-- No join finds more than one row. -/
def Single (I : Interpretation) (js : List Join) (s : Combination) : Prop :=
  ∀ before j after, js = before ++ j :: after → ∀ t ∈ I.joined before s, (I.partners j t).length ≤ 1

theorem length_joined_le (h : I.Single js s) : (I.joined js s).length ≤ 1 := by
  induction js generalizing s with
  | nil => exact Nat.le_refl 1
  | cons j js ih =>
    have hfirst : (I.extended j s).length ≤ 1 :=
      length_extended_le (h [] j js rfl s (List.mem_singleton_self s))
    have hrest : ∀ t ∈ I.extended j s, (I.joined js t).length ≤ 1 := fun t ht =>
      ih fun before k after hjs u hu =>
        h (j :: before) k after (by rw [hjs]; rfl) u (List.mem_flatMap.2 ⟨t, ht, hu⟩)
    rw [joined]
    match hext : I.extended j s with
    | [] => exact Nat.zero_le 1
    | [t] =>
      rw [List.flatMap_singleton]
      exact hrest t (hext ▸ List.mem_singleton_self t)
    | _ :: _ :: _ => simp [hext] at hfirst

theorem read_of_prefix {name column : String} {row : TableRow} (h : [(name, some row)] <+: s) :
    s.read name column = row column := by
  obtain ⟨t, rfl⟩ := h
  simp [Combination.read]

/-! ## Statements over tables -/

/-- The rows that satisfy the conditions over the joins of a table. -/
def filtered (I : Interpretation) (table name : String) (joins : List Join)
    (filter : List Conjunct) : List Combination :=
  ((I.rows table).flatMap fun row => I.joined joins [(name, some row)]).filter fun s =>
    filter.all fun k => I.holds k s

section
variable {table name : String} {joins : List Join} {filter : List Conjunct}

theorem prefix_of_mem_filtered (h : s ∈ I.filtered table name joins filter) :
    ∃ row ∈ I.rows table, [(name, some row)] <+: s := by
  obtain ⟨row, hrow, hs⟩ := List.mem_flatMap.1 (List.mem_filter.1 h).1
  exact ⟨row, hrow, prefix_of_mem_joined hs⟩

theorem combinations_eq {q : Select} (hsource : q.source = .table table name)
    (hgroup : q.groupBy = []) (hhaving : q.having = none) (hlimit : q.limit = none)
    (hoffset : q.offset = none) :
    I.combinations q = some (I.filtered table name q.joins q.filter) := by
  obtain ⟨distinct, items, source, joins, filter, groupBy, having, orderBy, limit, offset⟩ := q
  cases hsource
  cases hgroup
  cases hhaving
  cases hlimit
  cases hoffset
  rw [combinations, starts, Option.map_some, List.flatMap_map]
  rfl

/-- When no join finds more than one row, what tells the rows of the first table apart tells the rows
of the statement apart. -/
theorem sublist_filtered {γ : Type} {key : Combination → γ} {rowKey : TableRow → γ}
    (hsingle : ∀ row ∈ I.rows table, I.Single joins [(name, some row)])
    (hkey : ∀ row s, [(name, some row)] <+: s → key s = rowKey row) :
    ((I.filtered table name joins filter).map key).Sublist ((I.rows table).map rowKey) := by
  refine (List.filter_sublist.map key).trans ?_
  generalize I.rows table = rows at hsingle
  induction rows with
  | nil => exact List.Sublist.slnil
  | cons row rows ih =>
    obtain ⟨hrow, hsingle⟩ := List.forall_mem_cons.1 hsingle
    have hone := length_joined_le hrow
    rw [List.flatMap_cons, List.map_append, List.map_cons]
    match hs : I.joined joins [(name, some row)] with
    | [] => exact (ih hsingle).cons _
    | [s] =>
      rw [List.map_singleton, hkey row s (prefix_of_mem_joined (hs ▸ List.mem_singleton_self s))]
      exact (ih hsingle).cons_cons _
    | _ :: _ :: _ => simp [hs] at hone

end

/-! ## Select lists -/

variable {ss : List Combination} {keys : List String} {name : String}

theorem project_count (countAlias : Option String) :
    I.project false [⟨[.raw "COUNT(*)".toList], countAlias⟩] ss = [[.int ss.length]] := by
  rw [project, if_pos (by simp [countsRows])]

/-- A column is among the items, so that they do not count. -/
theorem countsRows_eq_false {items : List Item} {i : Item} {qualifier column : String} (hi : i ∈ items)
    (hterms : i.terms = [.column qualifier column]) : countsRows items = false := by
  rw [countsRows.eq_def]
  split
  · rw [List.mem_singleton.1 hi] at hterms
    cases hterms
  · rfl

theorem mem_project {items : List Item} {values : List Value} {distinct : Bool}
    (hcounts : countsRows items = false) : values ∈ I.project distinct items ss ↔
      ∃ s ∈ ss, I.selected items s = values := by
  rw [project, hcounts]
  cases distinct <;> simp

theorem project_keyItems (hkeys : keys ≠ []) : I.project true (keyItems name keys) ss =
    (ss.map fun s => keys.map (s.read name)).dedup := by
  obtain ⟨key, keys, rfl⟩ := List.exists_cons_of_ne_nil hkeys
  have hitems : keyItems name (key :: keys) =
      (key :: keys).map fun key => ⟨[.column name key], none⟩ := rfl
  have hcounts : countsRows (keyItems name (key :: keys)) = false := by
    rw [hitems]
    exact countsRows_eq_false List.mem_cons_self rfl
  rw [project, hcounts, hitems]
  simp only [Bool.false_eq_true, if_false, if_true]
  refine congrArg _ (List.map_congr_left fun s _ => ?_)
  rw [selected, List.map_map]
  rfl

/-- The number of results of a statement is counted by a statement around it. -/
theorem results_selectFrom_count {q : Select} {rs : List (List Value)} (h : I.results q = some rs)
    (countAlias : Option String) :
    I.results (QueryPlan.selectFrom false [⟨[.raw "COUNT(*)".toList], countAlias⟩] q name) =
      some [[.int rs.length]] := by
  obtain ⟨ss, hss, rfl⟩ := Option.map_eq_some_iff.1 h
  have hcombinations : I.combinations (QueryPlan.selectFrom false
      [⟨[.raw "COUNT(*)".toList], countAlias⟩] q name) =
        some ((I.project q.distinct q.items ss).map fun values =>
          [(name, some (derivedRow q.items values))]) := by
    rw [QueryPlan.selectFrom, combinations, starts, hss]
    simp only [Option.map_some, List.all_nil, List.filter_true, joined, List.flatMap_singleton']
  rw [results, hcombinations, Option.map_some]
  show some (I.project false [⟨[.raw "COUNT(*)".toList], countAlias⟩] _) = _
  rw [project_count, List.length_map]

end Interpretation
end Sql
end ObjectQuery
