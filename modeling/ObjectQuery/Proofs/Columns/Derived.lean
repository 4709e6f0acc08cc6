import ObjectQuery.Proofs.Columns.Counted
import ObjectQuery.Proofs.Compiler.Placeholders
import ObjectQuery.Proofs.Schema.Validity
import ObjectQuery.Proofs.Sql.Counting

/-! # Columns of derived tables

A derived table is read by the names of its columns. The statements of a plan project the key of the
root out of tables that also list what the roots are ordered by or what `HAVING` reads, and these
columns may be called like the key, or like one another.

* `plan_derived`: when the columns of all derived tables of a plan have different names. -/

namespace ObjectQuery

open Sql

variable {config : Config} {catalog : Catalog} {T : Text} {env : Surroundings} {p : QueryPlan}
  {names : AliasNames} {N : Nat} {d : Dialect} {s q : Select} {items : List Sql.Item}
  {limit offset : Option Nat}

namespace Sql

/-- The name of a column of a derived table: that after `AS`, or that of a column that stands
alone. -/
def Item.columnName? : Item → Option String
  | ⟨_, some name⟩ => some name
  | ⟨[.column _ column], none⟩ => some column
  | ⟨_, none⟩ => none

namespace Select

/-- The names of the columns of a derived table. -/
def columnNames (s : Select) : List String := s.items.filterMap (·.columnName?)

/-- The columns of the derived table that the statement reads from have different names, and every
column that is read out of it is one of them. -/
def DerivedApart (s : Select) : Prop :=
  ∀ q name spelled, s.source = .derived q name spelled → q.columnNames.Nodup ∧
    ∀ column, .column name column ∈ s.terms → q.columnNames.count column = 1

theorem derivedApart_of_table {table name : String} (h : s.source = .table table name) :
    s.DerivedApart := by
  intro q name' spelled hs
  rw [h] at hs
  cases hs

theorem derivedApart_of_derived {name : String} {spelled : Bool}
    (hs : s.source = .derived q name spelled)
    (hn : ∀ column, .column name column ∈ s.terms → column ∈ q.columnNames) :
    s.DerivedApart ↔ q.columnNames.Nodup := by
  refine ⟨fun h => (h q name spelled hs).1, fun h q' name' spelled' hs' => ?_⟩
  cases hs.symm.trans hs'
  exact ⟨h, fun column hx => List.count_eq_one_of_mem h (hn column hx)⟩

end Select
end Sql

/-! ## Columns of select lists -/

theorem filterMap_columnName?_of_named {xs : List String}
    (h : items.map (·.name) = xs.map some) : items.filterMap (·.columnName?) = xs := by
  induction items generalizing xs with
  | nil => cases xs with
    | nil => rfl
    | cons => cases h
  | cons i items ih =>
    cases xs with
    | nil => cases h
    | cons x xs =>
      obtain ⟨hi, h⟩ := List.cons.inj h
      have hname : i.columnName? = some x := by
        obtain ⟨terms, name⟩ := i
        cases hi
        rfl
      rw [List.filterMap_cons_some hname, ih h]

theorem filterMap_columnName?_keyItems (qualifier : String) (keys : List String) :
    (keyItems qualifier keys).filterMap (·.columnName?) = keys := by
  cases keys with
  | nil => rfl
  | cons key keys =>
    have hitems : keyItems qualifier (key :: keys) =
        (key :: keys).map fun key => ⟨[.column qualifier key], none⟩ := rfl
    rw [hitems, List.filterMap_map]
    exact List.filterMap_some

/-- An expression without a name of its own is a column when it consists of one. -/
theorem columnName?_terms (names : AliasNames) (e : Expr) :
    Item.columnName? ⟨e.terms names, none⟩ = e.asColumn?.map (·.2) := by
  obtain ⟨ps, aggregate⟩ := e
  cases ps with
  | nil => rfl
  | cons x ps =>
    cases ps with
    | nil => cases x <;> rfl
    | cons y ps => cases x <;> rfl

theorem nodup_filterMap_iff {α β : Type} {f : α → Option β} {xs : List α} (h : xs.Nodup) :
    (xs.filterMap f).Nodup ↔ ∀ x ∈ xs, ∀ y ∈ xs, ∀ b ∈ f x, b ∈ f y → x = y := by
  have hsymm : Std.Symm fun x y => ∀ b, f x = some b → ∀ b', f y = some b' → b ≠ b' :=
    ⟨fun x y hne b hb b' hb' he => hne b' hb' b hb he.symm⟩
  rw [List.Nodup, List.pairwise_filterMap, ← h.pairwise_coe]
  constructor
  · intro hne x hx y hy b hb hb'
    exact Classical.byContradiction fun hxy => hne hx hy hxy b hb b hb' rfl
  · rintro hinj x hx y hy hxy b hb b' hb' rfl
    exact hxy (hinj x hx y hy b hb hb')

/-! ## Statements that read tables -/

theorem Subquery.derivedApart (q : Subquery) : (q.toSelect names).Everywhere Select.DerivedApart := by
  refine @Subquery.everywhere names _ (fun _ => True) q trivial (fun q _ => ?_) fun _ _ _ _ _ _ =>
    trivial
  rw [q.toSelect_eq]
  exact Select.derivedApart_of_table toSelect_source

namespace QueryPlan

theorem countBody_derivedApart {distinct : Bool} (hitems : ∀ x ∈ items.flatMap (·.terms),
    p.CountTerm x) : (p.countBody distinct items).Everywhere Select.DerivedApart := by
  refine (Select.everywhere_of_levels levels_countBody fun q hx => ?_).2
    (Select.derivedApart_of_table toSelect_source)
  obtain ⟨e, -, r, -, rfl⟩ := (countTerm_countBody hitems hx).select
  exact r.derivedApart

theorem rootSelect_derivedApart : Select.Everywhere Select.DerivedApart
    { p.rootSelect names with limit := limit, offset := offset } := by
  refine (Select.everywhere_of_levels rfl fun q hx => ?_).2
    (Select.derivedApart_of_table toSelect_source)
  obtain ⟨e, -, r, -, rfl⟩ := (writtenFor_rootSelect hx).select
  exact r.derivedApart

/-! ## The statement that lists the limited roots -/

theorem nodup_orderOutputs : p.orderOutputs.Nodup := by
  suffices hall : ∀ (es outputs : List Expr), outputs.Nodup → (es.foldl
      (fun outputs e => if p.isRootKey e || outputs.any (fun o => o = e) then outputs
        else outputs ++ [e]) outputs).Nodup from hall _ [] List.nodup_nil
  intro es
  induction es with
  | nil => exact fun _ h => h
  | cons e es ih =>
    intro outputs h
    rw [List.foldl_cons]
    refine ih _ ?_
    split
    · exact h
    · rename_i hnew
      have hmem : e ∉ outputs := fun hmem => hnew (by simp [hmem])
      exact h.append (List.nodup_singleton e) (List.disjoint_singleton.2 hmem)

/-- The column that an expression comes down to, with select expressions in the place of their
names. -/
def orderColumn? (p : QueryPlan) (e : Expr) : Option String :=
  (e.inlined p.clauses).asColumn?.map (·.2)

/-- No order term that does not name a column of the key comes down to one, and no two order terms
come down to one column. -/
structure OrderColumnsApart (p : QueryPlan) : Prop where
  key : ∀ e ∈ p.orderOutputs, ∀ column ∈ p.orderColumn? e, column ∉ p.rootKeys
  column : ∀ e ∈ p.orderOutputs, ∀ e' ∈ p.orderOutputs, ∀ column ∈ p.orderColumn? e,
    column ∈ p.orderColumn? e' → e = e'

theorem columnNames_rootSelect : (p.rootSelect names).columnNames =
    p.rootKeys ++ if p.ordersByJoin then [] else p.orderOutputs.filterMap p.orderColumn? := by
  rw [Select.columnNames, rootSelect_eq, List.filterMap_append, filterMap_columnName?_keyItems,
    termsEach_eq, List.map_map, List.filterMap_map, keyOutputs, List.filterMap_map]
  refine congrArg _ ?_
  split
  · rfl
  · exact List.filterMap_congr fun e _ => columnName?_terms names (e.inlined p.clauses)

theorem nodup_columnNames_rootSelect (names : AliasNames) (hkeys : p.rootKeys.Nodup) :
    (p.rootSelect names).columnNames.Nodup ↔ (p.ordersByJoin = false → p.OrderColumnsApart) := by
  rw [columnNames_rootSelect]
  by_cases ho : p.ordersByJoin = true
  · rw [if_pos ho, List.append_nil, ho]
    exact iff_of_true hkeys nofun
  · have ho' : p.ordersByJoin = false := Bool.eq_false_of_not_eq_true ho
    rw [if_neg ho, List.nodup_append, nodup_filterMap_iff nodup_orderOutputs, and_iff_right hkeys]
    constructor
    · rintro ⟨hcolumn, hkey⟩ -
      refine ⟨fun e he column hc hmem => ?_, hcolumn⟩
      exact hkey column hmem column (List.mem_filterMap.2 ⟨e, he, hc⟩) rfl
    · intro h
      refine ⟨(h ho').column, fun key hk column hc he => ?_⟩
      obtain ⟨e, hmem, hc⟩ := List.mem_filterMap.1 hc
      exact (h ho').key e hmem column hc (he ▸ hk)

theorem columnNames_projectKeys {keys : List String} {distinct spelled : Bool} {name : String} :
    Select.columnNames { projectKeys keys distinct q name spelled with
      limit := limit, offset := offset } = keys :=
  filterMap_columnName?_keyItems name keys

/-- A statement that projects the key out of a derived table whose first columns are the key. -/
theorem derivedApart_projectKeys {distinct spelled : Bool} {name : String} (rest : List String)
    (hq : q.columnNames = p.rootKeys ++ rest) :
    Select.Everywhere Select.DerivedApart { projectKeys p.rootKeys distinct q name spelled with
      limit := limit, offset := offset } ↔
        q.columnNames.Nodup ∧ q.Everywhere Select.DerivedApart := by
  rw [Select.everywhere_of_source (q := q) (Select.levels_eq _) fun r hr => by
    obtain ⟨key, -, hr⟩ := mem_terms_projectKeys hr
    cases hr]
  refine and_congr_left fun _ => Select.derivedApart_of_derived rfl fun column hx => ?_
  obtain ⟨key, hkey, hx⟩ := mem_terms_projectKeys hx
  cases hx
  rw [hq]
  exact List.mem_append_left _ hkey

/-- The derived tables of the statement that lists the limited roots have columns of different names
when the one that lists what they are ordered by has. -/
theorem limitedKeys_derivedApart (hkeys : p.rootKeys.Nodup) (d : Dialect) :
    (p.limitedKeys d).Everywhere Select.DerivedApart ↔
      (p.ordersByJoin = false → p.OrderColumnsApart) := by
  rw [← nodup_columnNames_rootSelect (p.shadowAliases.getD p.aliases) hkeys]
  have hroot {l o limit offset : Option Nat} {distinct spelled : Bool} {name : String} :
      Select.Everywhere Select.DerivedApart { projectKeys p.rootKeys distinct
        { p.rootSelect (p.shadowAliases.getD p.aliases) with limit := l, offset := o } name spelled
        with limit := limit, offset := offset } ↔
          (p.rootSelect (p.shadowAliases.getD p.aliases)).columnNames.Nodup :=
    (derivedApart_projectKeys (q := { p.rootSelect (p.shadowAliases.getD p.aliases) with
      limit := l, offset := o }) _ columnNames_rootSelect).trans (and_iff_left rootSelect_derivedApart)
  simp only [limitedKeys]
  split
  · split
    · -- what is wrapped lists the key alone
      refine (derivedApart_projectKeys []
        (columnNames_projectKeys.trans (List.append_nil _).symm)).trans ?_
      rw [columnNames_projectKeys]
      exact (and_iff_right hkeys).trans (@hroot none none _ _ _ _ _)
    · exact @hroot none none _ _ _ _ _
  · split
    · exact hroot
    · rename_i ho hnone
      split
      · exact hroot
      · have hempty : p.orderOutputs = [] := by simpa using hnone
        refine iff_of_true rootSelect_derivedApart ?_
        rw [columnNames_rootSelect, hempty, if_neg ho, List.filterMap_nil, List.append_nil]
        exact hkeys

theorem selectStatement_derivedApart (hkeys : p.rootKeys.Nodup) (d : Dialect) :
    (p.selectStatement d).Everywhere Select.DerivedApart ↔
      (p.usesLimitSubquery d = true → p.ordersByJoin = false → p.OrderColumnsApart) := by
  rw [← limitedKeys_derivedApart hkeys]
  have hself : (p.selectStatement d).DerivedApart := by
    rw [selectStatement]
    split <;> exact Select.derivedApart_of_table toSelect_source
  rw [Select.everywhere_iff, levels_selectStatement, List.forall_mem_singleton, and_iff_right hself]
  refine ⟨fun h hlimit => h _ (limitedKeys_mem_terms hlimit), fun h q hx => ?_⟩
  rcases writtenFor_selectStatement hx with hx | ⟨hlimit, hx⟩
  · obtain ⟨e, -, r, -, rfl⟩ := hx.select
    exact r.derivedApart
  · cases hx
    exact h hlimit

end QueryPlan

/-! ## The statement that counts -/

/-- The columns that `HAVING` reads. -/
def ClauseSet.havingReads (c : ClauseSet) : List (AliasId × String) :=
  c.having.toList.flatMap (·.columns)

/-- No column is grouped by twice, and none is called like a select expression that `HAVING` refers
to. -/
structure ClauseSet.GroupsApart (c : ClauseSet) : Prop where
  columns : c.groupColumns.Nodup
  outputs : ∀ r ∈ c.havingRefs, (r.1, toString r.2) ∉ c.groupColumns

namespace QueryPlan

/-- The columns that `HAVING` reads have names of their own, and only the root has those of its key;
the select expressions that `HAVING` refers to are called otherwise. -/
structure HavingApart (p : QueryPlan) : Prop where
  keys : ∀ r ∈ p.clauses.havingReads, r.2 ∈ p.rootKeys → r.1 = p.graph.root.id
  columns : ∀ r ∈ p.clauses.havingReads, ∀ s ∈ p.clauses.havingReads, r.2 = s.2 → r = s
  outputs : ∀ r ∈ p.clauses.havingRefs, expressionOutput p.aliases r.1 r.2 ∉ p.rootKeys ∧
    ∀ s ∈ p.clauses.havingReads, s.2 ≠ expressionOutput p.aliases r.1 r.2

/-- What is counted lists groups or, without groups, what `HAVING` reads. -/
structure CountColumnsApart (p : QueryPlan) : Prop where
  groups : p.clauses.groupBy ≠ [] → p.clauses.GroupsApart
  having : p.clauses.groupBy = [] → p.HavingApart

theorem havingApart_of_none (h : p.clauses.having = none) : p.HavingApart := by
  have hreads : p.clauses.havingReads = [] := by rw [ClauseSet.havingReads, h]; rfl
  have hrefs : p.clauses.havingRefs = [] := by rw [ClauseSet.havingRefs, h]; rfl
  constructor <;> simp [hreads, hrefs]

theorem mem_havingColumns {r : AliasId × String} : r ∈ p.havingColumns ↔
    r ∈ p.clauses.havingReads ∧ ¬(r.1 = p.graph.root.id ∧ r.2 ∈ p.rootKeys) := by
  rw [havingColumns, List.mem_eraseDups, List.mem_filter]
  refine and_congr_right fun _ => ?_
  rw [Bool.not_eq_true', Bool.and_eq_false_iff, beq_eq_false_iff_ne, ← Bool.not_eq_true,
    List.contains_iff_mem, ← not_and_or]

/-- The count of the rows of a derived table reads none of its columns. -/
theorem derivedApart_counted {distinct : Bool} {countAlias name : String} :
    (selectFrom distinct (countItems countAlias) q name).Everywhere Select.DerivedApart ↔
      q.columnNames.Nodup ∧ q.Everywhere Select.DerivedApart := by
  rw [everywhere_selectFrom bare_countItems]
  refine and_congr_left fun _ => Select.derivedApart_of_derived rfl fun column hx => ?_
  cases List.mem_singleton.1 (mem_terms_selectFrom hx)

end QueryPlan

namespace PlanOver

variable (h : PlanOver env N p)
include h

theorem nodup_columnNames_groupStatement :
    p.groupStatement.columnNames.Nodup ↔ p.clauses.GroupsApart := by
  have hnames : p.groupStatement.columnNames =
      (p.clauses.groupBy.zipIdx.map fun g => QueryPlan.groupName p.aliases g.2 g.1) ++
        p.clauses.havingRefs.map fun r => expressionOutput p.aliases r.1 r.2 := by
    refine filterMap_columnName?_of_named ?_
    show (QueryPlan.groupItems _ _ ++ SelectItem.items _ _ _).map _ = _
    rw [List.map_append, map_name_groupItems, map_name_havingOutputs h.having_lists,
      List.map_append, List.map_map, List.map_map]
    rfl
  rw [hnames, List.nodup_append, h.nodup_groupNames, and_iff_right h.nodup_havingNames]
  constructor
  · rintro ⟨hcolumns, hne⟩
    refine ⟨hcolumns, fun r hr hmem => ?_⟩
    obtain ⟨e, he, hcolumn⟩ := List.mem_filterMap.1 hmem
    obtain ⟨n, hn⟩ := List.getElem?_of_mem he
    have hg : (e, n) ∈ p.clauses.groupBy.zipIdx := List.mem_zipIdx_iff_getElem?.2 hn
    exact hne _ (List.mem_map_of_mem hg) _ (List.mem_map_of_mem hr)
      ((h.groupName_eq_output he (h.havingRef_lt hr)).2 hcolumn)
  · rintro ⟨hcolumns, houtputs⟩
    refine ⟨hcolumns, fun x hx y hy he => ?_⟩
    obtain ⟨g, hg, rfl⟩ := List.mem_map.1 hx
    obtain ⟨r, hr, rfl⟩ := List.mem_map.1 hy
    have hmem := List.mem_of_getElem? (List.mem_zipIdx_iff_getElem?.1 hg)
    have hcolumn := (h.groupName_eq_output hmem (h.havingRef_lt hr)).1 he
    exact houtputs r hr (List.mem_filterMap.2 ⟨g.1, hmem, hcolumn⟩)

theorem columnNames_rowStatement : p.rowStatement.columnNames = p.rootKeys ++
    ((p.clauses.havingRefs.map fun r => expressionOutput p.aliases r.1 r.2) ++
      p.havingColumns.map (·.2)) := by
  show (p.rootKeyItems ++ p.havingItems ++ p.havingColumnItems).filterMap _ = _
  rw [List.append_assoc, List.filterMap_append, List.filterMap_append,
    filterMap_columnName?_keyItems, filterMap_columnName?_of_named
      ((map_name_havingOutputs h.having_lists).trans List.map_map.symm), List.filterMap_map]
  exact congrArg _ (congrArg _ (congrFun List.filterMap_eq_map _))

theorem nodup_columnNames_rowStatement (hkeys : p.rootKeys.Nodup) :
    p.rowStatement.columnNames.Nodup ↔ p.HavingApart := by
  have hcolumns : (p.havingColumns.map (·.2)).Nodup ↔
      ∀ r ∈ p.havingColumns, ∀ s ∈ p.havingColumns, r.2 = s.2 → r = s :=
    List.nodup_map_iff_inj_on (nodup_eraseDups _)
  rw [h.columnNames_rowStatement, ← List.append_assoc, List.nodup_append, List.nodup_append,
    hcolumns, and_iff_right hkeys, and_iff_right h.nodup_havingNames]
  constructor
  · rintro ⟨hkeys, hinj, hne⟩
    -- what `HAVING` reads is a column of the root key or listed next to it
    have hread {r : AliasId × String} (hr : r ∈ p.clauses.havingReads) :
        (r.1 = p.graph.root.id ∧ r.2 ∈ p.rootKeys) ∨ r ∈ p.havingColumns :=
      or_iff_not_imp_left.2 fun hnot => QueryPlan.mem_havingColumns.2 ⟨hr, hnot⟩
    have hkey {r : AliasId × String} (hr : r ∈ p.havingColumns) : r.2 ∉ p.rootKeys := fun hk =>
      hne _ (List.mem_append_left _ hk) _ (List.mem_map_of_mem hr) rfl
    refine ⟨fun r hr hk => ?_, fun r hr s hs he => ?_, fun r hr => ⟨fun hk => ?_, fun s hs he => ?_⟩⟩
    · exact ((hread hr).resolve_right fun hr => hkey hr hk).1
    · rcases hread hr with ⟨hr, hk⟩ | hr
      · rcases hread hs with ⟨hs, -⟩ | hs
        · exact Prod.ext (hr.trans hs.symm) he
        · exact absurd (he ▸ hk) (hkey hs)
      · rcases hread hs with ⟨-, hk⟩ | hs
        · exact absurd (he ▸ hk) (hkey hr)
        · exact hinj r hr s hs he
    · exact hkeys _ hk _ (List.mem_map_of_mem hr) rfl
    · rcases hread hs with ⟨-, hk⟩ | hs
      · exact hkeys _ hk _ (List.mem_map_of_mem hr) he
      · exact hne _ (List.mem_append_right _ (List.mem_map_of_mem hr)) _ (List.mem_map_of_mem hs)
          he.symm
  · rintro ⟨hkey, hinj, houtputs⟩
    refine ⟨fun key hk x hx he => ?_, fun r hr s hs => ?_, fun x hx y hy he => ?_⟩
    · obtain ⟨r, hr, rfl⟩ := List.mem_map.1 hx
      exact (houtputs r hr).1 (he ▸ hk)
    · exact hinj r (QueryPlan.mem_havingColumns.1 hr).1 s (QueryPlan.mem_havingColumns.1 hs).1
    · obtain ⟨s, hs, rfl⟩ := List.mem_map.1 hy
      obtain ⟨hread, hnot⟩ := QueryPlan.mem_havingColumns.1 hs
      rcases List.mem_append.1 hx with hk | hx
      · exact hnot ⟨hkey s hread (he ▸ hk), he ▸ hk⟩
      · obtain ⟨r, hr, rfl⟩ := List.mem_map.1 hx
        exact (houtputs r hr).2 s hread he.symm

theorem countStatement_derivedApart (hkeys : p.rootKeys.Nodup) (countAlias : String) :
    (p.countStatement countAlias).Everywhere Select.DerivedApart ↔ p.CountColumnsApart := by
  have hnone (hgroup : p.clauses.groupBy = []) (hhaving : p.clauses.having = none) :
      p.CountColumnsApart :=
    ⟨fun hne => absurd hgroup hne, fun _ => QueryPlan.havingApart_of_none hhaving⟩
  have hform := p.countsBy countAlias
  generalize p.countStatement countAlias = s at hform
  cases hform with
  | groups hgroup =>
    have hgroups : p.groupStatement.Everywhere Select.DerivedApart :=
      QueryPlan.countBody_derivedApart fun x => QueryPlan.countTerm_groupStatement
    rw [QueryPlan.derivedApart_counted, and_iff_left hgroups, h.nodup_columnNames_groupStatement]
    exact ⟨fun hapart => ⟨fun _ => hapart, fun hnil => absurd hnil hgroup⟩,
      fun hapart => hapart.groups hgroup⟩
  | having hgroup =>
    have hrows : p.rowStatement.Everywhere Select.DerivedApart :=
      QueryPlan.countBody_derivedApart fun x => QueryPlan.countTerm_rowStatement
    have hproject : (QueryPlan.projectKeys p.rootKeys true p.rowStatement QueryPlan.countTable
        false).Everywhere Select.DerivedApart ↔ _ :=
      QueryPlan.derivedApart_projectKeys _ h.columnNames_rowStatement
    rw [and_iff_left hrows, h.nodup_columnNames_rowStatement hkeys] at hproject
    have hnames : Select.columnNames (QueryPlan.selectFrom true
        (keyItems QueryPlan.countTable p.rootKeys) p.rowStatement QueryPlan.countTable) =
          p.rootKeys := filterMap_columnName?_keyItems _ _
    rw [QueryPlan.derivedApart_counted, hnames, and_iff_right hkeys]
    refine hproject.trans ⟨fun hapart => ⟨fun hne => absurd hgroup hne, fun _ => hapart⟩, ?_⟩
    exact fun hapart => hapart.having hgroup
  | keys hgroup hhaving =>
    have hnames : (p.countBody true p.rootKeyItems).columnNames = p.rootKeys :=
      filterMap_columnName?_keyItems _ _
    rw [QueryPlan.derivedApart_counted, hnames, and_iff_right hkeys]
    refine iff_of_true (QueryPlan.countBody_derivedApart fun x hx => ?_) (hnone hgroup hhaving)
    exact .inl (QueryPlan.bare_keyItems x hx)
  | rows hgroup hhaving =>
    refine iff_of_true (QueryPlan.countBody_derivedApart fun x hx => ?_) (hnone hgroup hhaving)
    exact .inl (QueryPlan.bare_countItems x hx)

end PlanOver

/-! ## Main result -/

namespace Sample

/-- Users and phones. -/
def directory : Catalog where
  name := none
  components := [user, phone]
  valid := by decide +kernel

/-- Users with their phones, in the order of their names. -/
def named : Text := "SELECT u.id FROM User u LEFT JOIN u.phones p ORDER BY u.name LIMIT 10".toList

/-- Users with their phones, in the order of their key under another name. -/
def renamed : Text :=
  "SELECT u.id AS x FROM User u LEFT JOIN u.phones p ORDER BY x LIMIT 10".toList

end Sample

theorem nodup_rootKeys (h : plan ⟨catalog.describe, config⟩ T = .ok p) : p.rootKeys.Nodup := by
  obtain ⟨q, -, hq⟩ := (plan_spec h).query
  have hroot : p.graph.root ∈ p.graph.nodes := List.mem_cons_self
  exact Catalog.nodup_keyNames (Catalog.mem_of_describes (hq.graph.derived _ hroot).described)

/-- In the statement that lists the limited roots of a plan, the columns of all derived tables have
different names just when the order terms come down to different columns and none of them to a column
of the key; in the statement that counts, just when this is so of the groups, or of what `HAVING`
reads. -/
theorem plan_derived (h : plan ⟨catalog.describe, config⟩ T = .ok p) :
    (∀ d, (p.selectStatement d).Everywhere Select.DerivedApart ↔
      (p.usesLimitSubquery d = true → p.ordersByJoin = false → p.OrderColumnsApart)) ∧
      ∀ countAlias,
        (p.countStatement countAlias).Everywhere Select.DerivedApart ↔ p.CountColumnsApart := by
  obtain ⟨n, hp⟩ := plan_over h
  exact ⟨QueryPlan.selectStatement_derivedApart (nodup_rootKeys h),
    hp.countStatement_derivedApart (nodup_rootKeys h)⟩

/-- The names of users are selected next to the key. -/
theorem plan_derived_named : ∃ p, plan ⟨Sample.directory.describe, {}⟩ Sample.named = .ok p ∧
    p.usesLimitSubquery .pgsql = true ∧
    (p.selectStatement .pgsql).Everywhere Select.DerivedApart ∧
    (p.countStatement "num_results").Everywhere Select.DerivedApart := by
  obtain ⟨p, hp, hlimit, hkeys, hcolumns, hgroup, hhaving⟩ : ∃ p,
      plan ⟨Sample.directory.describe, {}⟩ Sample.named = .ok p ∧
        p.usesLimitSubquery .pgsql = true ∧ p.rootKeys = ["id"] ∧
        p.orderOutputs.map p.orderColumn? = [some "user_name"] ∧
        p.clauses.groupBy.length = 0 ∧ p.clauses.having.isNone = true := by decide +kernel
  obtain ⟨hselect, hcount⟩ := plan_derived hp
  refine ⟨p, hp, hlimit, (hselect _).2 fun _ _ => ?_, (hcount _).2 ?_⟩
  · obtain ⟨e, he, hcolumn⟩ := List.map_eq_singleton_iff.1 hcolumns
    refine ⟨fun e' he' column hc => ?_, fun e₁ h₁ e₂ h₂ _ _ _ => ?_⟩
    · rw [he, List.mem_singleton] at he'
      rw [he', hcolumn] at hc
      cases hc
      rw [hkeys]
      decide
    · rw [he, List.mem_singleton] at h₁ h₂
      rw [h₁, h₂]
  · have hgroup := List.length_eq_zero_iff.1 hgroup
    exact ⟨fun hne => absurd hgroup hne, fun _ =>
      QueryPlan.havingApart_of_none (Option.isNone_iff_eq_none.1 hhaving)⟩

/-- The key is selected a second time under the name of an order term. -/
theorem limit_repeats_key : ∃ p, plan ⟨Sample.directory.describe, {}⟩ Sample.renamed = .ok p ∧
    ¬(p.selectStatement .pgsql).Everywhere Select.DerivedApart := by
  obtain ⟨p, hp, hlimit, ho, hkeys, hcolumns⟩ : ∃ p,
      plan ⟨Sample.directory.describe, {}⟩ Sample.renamed = .ok p ∧
        p.usesLimitSubquery .pgsql = true ∧ p.ordersByJoin = false ∧ p.rootKeys = ["id"] ∧
        p.orderOutputs.map p.orderColumn? = [some "id"] := by decide +kernel
  refine ⟨p, hp, fun hapart => ?_⟩
  have happ := (QueryPlan.selectStatement_derivedApart (nodup_rootKeys hp) _).1 hapart hlimit ho
  obtain ⟨e, he, hcolumn⟩ := List.map_eq_singleton_iff.1 hcolumns
  have hmem : e ∈ p.orderOutputs := he ▸ List.mem_singleton_self e
  exact happ.key e hmem "id" hcolumn (hkeys ▸ List.mem_singleton_self "id")

end ObjectQuery
