import ObjectQuery.Proofs.Compiler.Hydration
import ObjectQuery.Proofs.Hydration.Keys
import ObjectQuery.Proofs.Hydration.Roots
import ObjectQuery.Proofs.Sql.Evaluation

/-! # Counts and records

A query is counted by the number of its roots, and rows make a record for every root. Both are the number
of keys among the rows of the query without its limit: a join that finds several rows repeats roots, and
then the keys are counted, each once; where no join does, there is one row for every key.

* `QueryPlan.results_countStatement`: what is counted;
* `QueryPlan.keys_of_carried`: the keys of the rows that are hydrated;
* `plan_counts`: they agree. -/

namespace ObjectQuery

open HydrationPlan Sql Sql.Interpretation

variable {env : Surroundings} {catalog : Catalog} {config : Config} {T : Text} {p : QueryPlan} {d : Dialect}
  {I : Interpretation} {n : HydrationNode} {row : Row} {rows : List Row} {values : List Value}
  {s : Combination} {items : List Sql.Item} {f : SelectedField} {root : HydrationNode}

/-! ## Combinations of a plan -/

namespace QueryPlan

/-- The nodes that are written as joins. -/
def joinedNodes (p : QueryPlan) : List JoinNode := p.emittedNodes.filter (·.id != p.graph.root.id)

/-- The plan of the same query without its limit. -/
def unlimited (p : QueryPlan) : QueryPlan :=
  { p with shadowAliases := none, clauses := { p.clauses with limit := none, offset := none } }

/-- The name of the table of the root. -/
def rootName (p : QueryPlan) : String := p.aliases.get p.graph.root.id

/-- The key of the root that a statement is at. -/
def rootKey (p : QueryPlan) (s : Combination) : List Value := p.rootKeys.map (s.read p.rootName)

/-- The primary key tells the rows of the root apart and is never null, and joins find one row at most
unless some relation among them leads to many. -/
structure KeyedIn (p : QueryPlan) (I : Interpretation) : Prop where
  unique : ((I.rows p.graph.root.component.table).map fun row => p.rootKeys.map row).Nodup
  filled : ∀ row ∈ I.rows p.graph.root.component.table, ∀ key ∈ p.rootKeys, (row key).isNull = false
  single : p.hasFanOut = false → ∀ before n after, p.joinedNodes = before ++ n :: after →
    ∀ row ∈ I.rows p.graph.root.component.table,
      ∀ s ∈ I.joined (before.map (·.join p.aliases)) [(p.rootName, some row)],
        (I.partners (n.join p.aliases) s).length ≤ 1

theorem sqlJoins_eq_map :
    p.graph.sqlJoins p.aliases p.emitted = p.joinedNodes.map (·.join p.aliases) := by
  rw [sqlJoins_eq, joinedNodes, emittedNodes, ← List.filterMap_eq_filter, List.filterMap_filterMap,
    List.map_filterMap]
  refine List.filterMap_congr fun a _ => ?_
  rw [JoinGraph.sqlJoin?]
  cases hn : p.graph.node? a with
  | none => simp
  | some n =>
    have hid : n.id = a := by simpa using List.find?_some hn
    by_cases hroot : a = p.graph.root.id <;> simp [hid, hroot]

theorem KeyedIn.joins (h : p.KeyedIn I) (hfan : p.hasFanOut = false)
    {row : TableRow} (hrow : row ∈ I.rows p.graph.root.component.table) :
    I.Single (p.graph.sqlJoins p.aliases p.emitted) [(p.rootName, some row)] := by
  intro before j after hjoins t ht
  rw [sqlJoins_eq_map] at hjoins
  obtain ⟨before', rest, hnodes, rfl, hrest⟩ := List.map_eq_append_iff.1 hjoins
  obtain ⟨n, after', rfl, rfl, -⟩ := List.map_eq_cons_iff.1 hrest
  exact h.single hfan before' n after' hnodes row hrow t ht

/-- The rows that the statements of a plan are at. -/
def combined (p : QueryPlan) (I : Interpretation) : List Combination :=
  I.filtered p.graph.root.component.table p.rootName (p.graph.sqlJoins p.aliases p.emitted)
    (p.toSelect p.aliases p.clauses).filter

theorem toSelect_groupBy {c : ClauseSet} {names : AliasNames} :
    (p.toSelect names c).groupBy = Expr.termsEach names c.groupBy := by
  cases c
  rfl

theorem combinations_eq_combined {q : Select}
    (hsource : q.source = p.graph.root.rootTable p.aliases)
    (hjoins : q.joins = p.graph.sqlJoins p.aliases p.emitted)
    (hfilter : q.filter = (p.toSelect p.aliases p.clauses).filter) (hgroup : q.groupBy = [])
    (hhaving : q.having = none) (hlimit : q.limit = none) (hoffset : q.offset = none) :
    I.combinations q = some (p.combined I) := by
  rw [combinations_eq hsource hgroup hhaving hlimit hoffset, hjoins, hfilter]
  rfl

section
variable (hgroup : p.clauses.groupBy = []) (hhaving : p.clauses.having = none)
include hgroup hhaving

theorem combinations_countBody (distinct : Bool) (items : List Sql.Item) :
    I.combinations (p.countBody distinct items) = some (p.combined I) := by
  refine combinations_eq_combined toSelect_source toSelect_joins rfl ?_ ?_ rfl rfl
  · exact toSelect_groupBy.trans (by rw [hgroup]; rfl)
  · exact toSelect_having.trans (by rw [hhaving]; rfl)

theorem combinations_unlimited (d : Dialect) :
    I.combinations (p.unlimited.selectStatement d) = some (p.combined I) := by
  have hselect : p.unlimited.selectStatement d = p.toSelect p.aliases p.unlimited.clauses := by
    rw [selectStatement, if_neg (by simp [usesLimitSubquery, unlimited])]
    rfl
  rw [hselect]
  refine combinations_eq_combined toSelect_source toSelect_joins ?_ ?_ ?_ rfl rfl
  · rw [toSelect, toSelect, toSelect_filter, toSelect_filter]
    rfl
  · exact toSelect_groupBy.trans (by rw [unlimited, hgroup]; rfl)
  · exact toSelect_having.trans (by rw [unlimited, hhaving]; rfl)

end

theorem exists_row_of_mem_combined (h : s ∈ p.combined I) :
    ∃ row ∈ I.rows p.graph.root.component.table, ∀ column, s.read p.rootName column = row column := by
  obtain ⟨row, hrow, hs⟩ := prefix_of_mem_filtered h
  exact ⟨row, hrow, fun column => read_of_prefix hs⟩

/-- Without joins that find several rows, every root is there once at most. -/
theorem KeyedIn.nodup_rootKey (h : p.KeyedIn I) (hfan : p.hasFanOut = false) :
    ((p.combined I).map p.rootKey).Nodup :=
  h.unique.sublist <| sublist_filtered (fun _ hrow => h.joins hfan hrow) fun _ _ hs =>
    List.map_congr_left fun _ _ => read_of_prefix hs

/-- What is counted is the number of keys of roots. -/
theorem results_countStatement (hgroup : p.clauses.groupBy = []) (hhaving : p.clauses.having = none)
    (hkeys : p.rootKeys ≠ []) (hkeyed : p.KeyedIn I) (countAlias : String) :
    I.results (p.countStatement countAlias) =
      some [[.int ((p.combined I).map p.rootKey).dedup.length]] := by
  rw [countStatement]
  dsimp only
  rw [if_neg (by simp [hgroup]), if_neg (by simp [hhaving])]
  split
  · -- the keys of the roots are counted, each once
    refine results_selectFrom_count ?_ _
    rw [results, combinations_countBody hgroup hhaving, Option.map_some]
    exact congrArg some (project_keyItems hkeys)
  · rename_i hcount
    have hfan : p.hasFanOut = false := by simp_all
    rw [results, combinations_countBody hgroup hhaving, Option.map_some]
    refine congrArg some ((project_count _).trans ?_)
    rw [(hkeyed.nodup_rootKey hfan).dedup, List.length_map]

end QueryPlan

/-! ## Rows of a plan -/

/-- The row has the results of select items under their names. -/
def Row.Carries (row : Row) (items : List Sql.Item) (values : List Value) : Prop :=
  ∀ i ∈ items.zip values, ∀ name ∈ i.1.name, Fields.get? row name = some i.2

/-- The rows have the results of a statement, in any order. -/
def Sql.Select.CarriedBy (q : Select) (I : Interpretation) (rows : List Row) : Prop :=
  ∃ results, I.results q = some results ∧ ∃ ordered, ordered.Perm results ∧
    List.Forall₂ (fun values row => Row.Carries row q.items values) ordered rows

/-- The row has what a statement selects at a combination. -/
def Sql.Select.Shows (q : Select) (I : Interpretation) (s : Combination) (row : Row) : Prop :=
  Row.Carries row q.items (I.selected q.items s)

theorem Sql.Select.Shows.get? {q : Select} {i : Sql.Item} {name : String} (h : q.Shows I s row)
    (hi : i ∈ q.items) (hname : i.name = some name) :
    Fields.get? row name = some (I.itemValue i.terms s) := by
  refine h (i, I.itemValue i.terms s) ?_ name hname
  rw [Interpretation.selected, ← List.map_prod_left_eq_zip]
  exact List.mem_map_of_mem hi

/-- The rows of a statement that does not count are those of its combinations. -/
theorem Sql.Select.CarriedBy.shown {q : Select} {ss : List Combination} (h : q.CarriedBy I rows)
    (hss : I.combinations q = some ss) (hcounts : countsRows q.items = false) :
    (∀ row ∈ rows, ∃ s ∈ ss, q.Shows I s row) ∧ ∀ s ∈ ss, ∃ row ∈ rows, q.Shows I s row := by
  obtain ⟨results, hresults, ordered, hperm, hall⟩ := h
  rw [Interpretation.results, hss, Option.map_some] at hresults
  cases hresults
  constructor
  · intro row hrow
    obtain ⟨values, hvalues, hcarries⟩ := exists_left_of_mem hall hrow
    obtain ⟨s, hs, rfl⟩ := (mem_project hcounts).1 (hperm.mem_iff.1 hvalues)
    exact ⟨s, hs, hcarries⟩
  · intro s hs
    have hvalues : I.selected q.items s ∈ I.project q.distinct q.items ss :=
      (mem_project hcounts).2 ⟨s, hs, rfl⟩
    exact exists_left_of_mem hall.flip (hperm.mem_iff.2 hvalues)

theorem mem_items_field (names : AliasNames) {select : List SelectItem} (h : .field f ∈ select) :
    ⟨[.column (names.get f.owner) f.column], some f.output⟩ ∈ SelectItem.items names true select := by
  induction select with
  | nil => cases h
  | cons i select ih =>
    rcases List.mem_cons.1 h with rfl | hrest
    · exact List.mem_cons_self
    · cases i with
      | field | expression => exact List.mem_cons_of_mem _ (ih hrest)

namespace QueryPlan

theorem items_unlimited (d : Dialect) : (p.unlimited.selectStatement d).items =
    SelectItem.items p.aliases true p.clauses.select := by
  rw [selectStatement]
  split <;> exact toSelect_items

theorem field_mem_items_unlimited (d : Dialect) (h : .field f ∈ p.clauses.select) :
    ⟨[.column (p.aliases.get f.owner) f.column], some f.output⟩ ∈
      (p.unlimited.selectStatement d).items :=
  items_unlimited d ▸ mem_items_field p.aliases h

/-- Rows of a query without its limit have what the hydration plan reads. -/
theorem readsFrom_of_shows (h : (p.unlimited.selectStatement d).Shows I s row)
    (hn : n ∈ (ofQueryPlan p).nodes) : n.ReadsFrom row := by
  intro output ho
  obtain ⟨i, hi, hname⟩ : output ∈ (p.unlimited.selectStatement d).outputs :=
    mem_outputs_selectStatement.2 (mem_outputs_of_mem hn ho : output ∈ p.outputs)
  rw [h.get? hi hname]
  rfl

/-! ### Keys in the rows -/

/-- The columns of the key of the root that are selected. -/
def selectedKeys (p : QueryPlan) : List SelectedField :=
  heldKeys p.clauses p.graph.root.id p.graph.root.component

theorem mem_selectedKeys (h : f ∈ p.selectedKeys) :
    .field f ∈ p.clauses.select ∧ f.owner = p.graph.root.id ∧ f.column ∈ p.rootKeys := by
  obtain ⟨hf, hkey⟩ := List.mem_filter.1 h
  obtain ⟨hselect, howner⟩ := ClauseSet.mem_fieldsOf.1 (mem_fieldsOf_of_mem_selectedFields hf)
  exact ⟨hselect, howner, List.contains_iff_mem.1 hkey⟩

/-- A row has a column of the root that is selected. -/
theorem get?_of_shows (hrow : (p.unlimited.selectStatement d).Shows I s row)
    (h : .field f ∈ p.clauses.select) (howner : f.owner = p.graph.root.id) :
    Fields.get? row f.output = some (s.read p.rootName f.column) :=
  (hrow.get? (field_mem_items_unlimited d h) rfl).trans (by rw [howner]; rfl)

/-- The records of the node are told apart by the whole key of the root: every column of the key is
selected under the name of a column that tells them apart. -/
structure IdentifiedBy (p : QueryPlan) (root : HydrationNode) : Prop where
  identifier : root.identifier = p.selectedKeys.map fun f => ⟨f.field, f.output⟩
  covers : ∀ key ∈ p.rootKeys, ∃ f ∈ p.selectedKeys, ∃ f', .field f' ∈ p.clauses.select ∧
    f'.owner = p.graph.root.id ∧ f'.column = key ∧ f'.output = f.output
  nonempty : p.rootKeys ≠ []

namespace IdentifiedBy

variable (h : p.IdentifiedBy root)
include h

theorem exists_selectedKey : ∃ f ∈ p.selectedKeys, f.column ∈ p.rootKeys := by
  obtain ⟨key, hkey⟩ := List.exists_mem_of_ne_nil _ h.nonempty
  obtain ⟨f, hf, -⟩ := h.covers key hkey
  exact ⟨f, hf, (mem_selectedKeys hf).2.2⟩

/-- A column is selected, so that the select list does not count. -/
theorem countsRows_eq_false : countsRows (p.unlimited.selectStatement d).items = false := by
  obtain ⟨f, hf, -⟩ := h.exists_selectedKey
  exact Interpretation.countsRows_eq_false (field_mem_items_unlimited d (mem_selectedKeys hf).1) rfl

theorem keyOf_eq (hrow : (p.unlimited.selectStatement d).Shows I s row) :
    root.keyOf row = (p.selectedKeys.map fun f => s.read p.rootName f.column).map some := by
  rw [HydrationNode.keyOf, h.identifier, List.map_map, List.map_map]
  refine List.map_congr_left fun f hf => ?_
  obtain ⟨hselect, howner, -⟩ := mem_selectedKeys hf
  exact get?_of_shows hrow hselect howner

theorem hasKey (hkeyed : p.KeyedIn I) (hs : s ∈ p.combined I)
    (hrow : (p.unlimited.selectStatement d).Shows I s row) : root.HasKey row := by
  obtain ⟨f, hf, hkey⟩ := h.exists_selectedKey
  obtain ⟨tableRow, htable, hread⟩ := exists_row_of_mem_combined hs
  refine ⟨_, h.keyOf_eq hrow, _, List.mem_map_of_mem hf, ?_⟩
  rw [hread]
  exact hkeyed.filled tableRow htable f.column hkey

/-- Where a row is shown, the key of the root is there under the names of the columns that tell the
records apart. -/
theorem exists_read_eq {key : String} (hkey : key ∈ p.rootKeys) : ∃ f ∈ p.selectedKeys,
    ∀ {s row}, (p.unlimited.selectStatement d).Shows I s row →
      s.read p.rootName key = s.read p.rootName f.column := by
  obtain ⟨f, hf, f', hselect', howner', rfl, houtput⟩ := h.covers key hkey
  refine ⟨f, hf, fun hrow => Option.some.inj ?_⟩
  obtain ⟨hselect, howner, -⟩ := mem_selectedKeys hf
  rw [← get?_of_shows hrow hselect' howner', ← get?_of_shows hrow hselect howner, houtput]

/-- There are as many keys in the rows as there are keys of roots. -/
theorem length_keys
    (hrows : ∀ row ∈ rows, ∃ s ∈ p.combined I, (p.unlimited.selectStatement d).Shows I s row)
    (hss : ∀ s ∈ p.combined I, ∃ row ∈ rows, (p.unlimited.selectStatement d).Shows I s row) :
    (rows.map root.keyOf).dedup.length = ((p.combined I).map p.rootKey).dedup.length := by
  have hmem (k : List (Option Value)) : k ∈ rows.map root.keyOf ↔ k ∈ (p.combined I).map fun s =>
      (p.selectedKeys.map fun f => s.read p.rootName f.column).map some := by
    simp only [List.mem_map]
    constructor
    · rintro ⟨row, hrow, rfl⟩
      obtain ⟨s, hs, hshows⟩ := hrows row hrow
      exact ⟨s, hs, (h.keyOf_eq hshows).symm⟩
    · rintro ⟨s, hs, rfl⟩
      obtain ⟨row, hrow, hshows⟩ := hss s hs
      exact ⟨row, hrow, h.keyOf_eq hshows⟩
  rw [length_dedup_eq hmem]
  refine length_dedup_map_eq fun s hs t ht => ?_
  -- the same columns are compared, though in another order
  rw [(List.map_injective_iff.2 (Option.some_injective _)).eq_iff, List.map_inj_left, rootKey,
    rootKey, List.map_inj_left]
  constructor
  · intro he key hkey
    obtain ⟨_, -, hshown⟩ := hss s hs
    obtain ⟨_, -, htshown⟩ := hss t ht
    obtain ⟨f, hf, hread⟩ := h.exists_read_eq hkey
    rw [hread hshown, hread htshown, he f hf]
  · exact fun he f hf => he f.column (mem_selectedKeys hf).2.2

end IdentifiedBy
end QueryPlan

/-- The first node of a hydration plan has its whole key from the columns that count. -/
theorem identifiedBy_of_identified (hkeys : p.rootKeys ≠ [])
    (h : (nodeAt p 0 p.graph.root).Identified p p.graph.root) :
    p.IdentifiedBy (nodeAt p 0 p.graph.root) := by
  have hid : (nodeAt p 0 p.graph.root).identifier =
      p.selectedKeys.map fun f => ⟨f.field, f.output⟩ := by
    have hperm := h.keys
    rw [identifier_nodeAt] at hperm ⊢
    split at hperm
    · rw [if_pos ‹_›]
      rfl
    · exact absurd (List.map_eq_nil_iff.2 (List.map_eq_nil_iff.1 hperm.nil_eq.symm)) hkeys
  refine ⟨hid, fun key hkey => ?_, hkeys⟩
  obtain ⟨k, hk, rfl⟩ := List.mem_map.1 hkey
  obtain ⟨f', hselect, howner, hcolumn, hbound⟩ := h.bound k hk
  rw [hid, List.mem_map] at hbound
  obtain ⟨f, hf, he⟩ := hbound
  exact ⟨f, hf, f', hselect, howner, hcolumn, (FieldBinding.mk.inj he).2.symm⟩

/-- A component of a catalog has a key. -/
theorem Catalog.rootKeys_ne_nil (h : plan ⟨catalog.describe, config⟩ T = .ok p) :
    p.rootKeys ≠ [] := by
  obtain ⟨b, c, hp⟩ := plan_placed (Surroundings.spells_any _) h
  exact mt List.map_eq_nil_iff.1
    (Catalog.primaryKeys_ne_nil (hp.mem_components (List.mem_cons_self : p.graph.root ∈ _)))

/-! ## Main result -/

/-- Where every row is a record and the root has a key, a query is counted by the number of keys of its
root that the query without its limit is at, whatever tables hold and conditions mean. When the key is
selected as a whole, the rows have as many keys; and when no column keys the records of the root, there
are as many. -/
theorem plan_counts (h : plan env T = .ok p) (hplain : p.clauses.Plain)
    (hhaving : p.clauses.having = none) (hkeys : p.rootKeys ≠ []) (hkeyed : p.KeyedIn I)
    (d : Dialect) :
    ∃ ss, I.combinations (p.unlimited.selectStatement d) = some ss ∧
      (∀ countAlias, I.results (p.countStatement countAlias) =
        some [[.int (ss.map p.rootKey).dedup.length]]) ∧
      ∀ root, (ofQueryPlan p).root? = some root → root.Identified p p.graph.root →
        ∀ rows, (p.unlimited.selectStatement d).CarriedBy I rows →
          (rows.map root.keyOf).dedup.length = (ss.map p.rootKey).dedup.length ∧
          (root.indexBy = none → ∃ records,
            hydrate (ofQueryPlan p) .record rows = .ok (.records records) ∧
              records.size = (ss.map p.rootKey).dedup.length) := by
  obtain ⟨b, c, hp⟩ := plan_placed env.spells_any h
  obtain ⟨N, ho⟩ := plan_over h
  obtain ⟨q, -, hq⟩ := (plan_spec h).query
  have hcombined := QueryPlan.combinations_unlimited (I := I) hplain.2 hhaving d
  refine ⟨p.combined I, hcombined,
    QueryPlan.results_countStatement hplain.2 hhaving hkeys hkeyed,
    fun root hroot hidentified rows hrows => ?_⟩
  obtain rfl : nodeAt p 0 p.graph.root = root := by
    rw [HydrationPlan.root?, List.head?_eq_getElem?, hp.getElem?_root hq.graph.nodup ho] at hroot
    exact Option.some.inj hroot
  have hby := identifiedBy_of_identified hkeys hidentified
  obtain ⟨hrows, hss⟩ := hrows.shown hcombined hby.countsRows_eq_false
  have hlength := hby.length_keys hrows hss
  refine ⟨hlength, fun hindex => ?_⟩
  obtain ⟨records, hrecords⟩ := exists_hydrate_records fun row hrow n hn => by
    obtain ⟨s, -, hshows⟩ := hrows row hrow
    exact QueryPlan.readsFrom_of_shows hshows hn
  refine ⟨records, hrecords, ?_⟩
  rw [← hlength]
  refine (plan_isTree h).size_records hroot hindex (fun row hrow => ?_) hrecords
  obtain ⟨s, hs, hshows⟩ := hrows row hrow
  exact hby.hasKey hkeyed hs hshows

namespace Sample

/-- Users with a phone of a given number. -/
def phoned : Text :=
  "SELECT u.id FROM User u LEFT JOIN u.phones p WHERE p.number = '1'".toList

/-- Two users; the first of them has two phones, of one number. -/
def tables : Interpretation where
  rows table := match table with
    | "users" => [fun _ => .int 1, fun _ => .int 2]
    | "phones" =>
      let phone (column : String) : Value := match column with
        | "number" => .string "1"
        | "kind" => .string "phone?"
        | _ => .int 1
      [phone, phone]
    | _ => []
  holds condition s := match condition.terms with
    | [.column t c, .raw _, .column t' c'] => s.read t c = s.read t' c'
    | [.equals t c v] => s.read t c = v
    | .column t c :: _ => s.read t c = .string "1"
    | _ => false
  value _ _ := .null

/-- The first user, once for every phone. -/
def phonedRows : List Row := [[("u__id", .int 1)], [("u__id", .int 1)]]

end Sample

/-- There is one user with the number. -/
theorem plan_counts_numbered : ∃ p, plan ⟨Sample.directory.describe, {}⟩ Sample.phoned = .ok p ∧
    Sample.tables.results (p.countStatement "total") = some [[.int 1]] ∧
      ∃ records, hydrate (ofQueryPlan p) .record Sample.phonedRows = .ok (.records records) ∧
        records.size = 1 := by
  obtain ⟨p, hp, hplain, hhaving, hfan, hcomponent, hcount, hresults, hnames, root, hroot, hindex,
      hidentifier, f, hf, howner, hcolumn, houtput⟩ :
      ∃ p, plan ⟨Sample.directory.describe, {}⟩ Sample.phoned = .ok p ∧
        (p.clauses.hasAggregates = false ∧ p.clauses.groupBy = []) ∧
        p.clauses.having.isNone = true ∧ p.hasFanOut = true ∧
        p.graph.root.component = Sample.user ∧
        Sample.tables.results (p.countStatement "total") = some [[.int 1]] ∧
        Sample.tables.results (p.unlimited.selectStatement .pgsql) = some [[.int 1], [.int 1]] ∧
        (p.unlimited.selectStatement .pgsql).items.map (·.name) = [some "u__id"] ∧
        ∃ root ∈ (ofQueryPlan p).root?, root.indexBy = none ∧
          root.identifier = [⟨"id", "u__id"⟩] ∧
          ∃ f ∈ p.clauses.select.filterMap (·.field?), f.owner = p.graph.root.id ∧
            f.column = "id" ∧ f.output = "u__id" := by decide +kernel
  have hkeyed : p.KeyedIn Sample.tables := by
    refine ⟨?_, ?_, fun hnone => absurd (hfan.symm.trans hnone) (by decide)⟩ <;>
      rw [QueryPlan.rootKeys, hcomponent] <;> decide
  have hidentified : root.Identified p p.graph.root := by
    have hkeys : p.graph.root.component.primaryKeys = [⟨"id", none, "integer", true⟩] := by
      rw [hcomponent]
      decide
    refine ⟨by rw [hidentifier, hkeys]; decide, fun k hk => ?_⟩
    rw [hkeys, List.mem_singleton] at hk
    rw [hidentifier, hk]
    refine ⟨f, SelectItem.mem_filterMap_field?.1 hf, howner, hcolumn, ?_⟩
    rw [houtput]
    decide
  have hcarries : (p.unlimited.selectStatement .pgsql).CarriedBy Sample.tables Sample.phonedRows := by
    obtain ⟨i, hi, hname⟩ := List.map_eq_singleton_iff.1 hnames
    have hone : Row.Carries [("u__id", .int 1)] [i] [.int 1] := by
      intro x hx name hxname
      rw [List.mem_singleton.1 hx, hname] at hxname
      cases hxname
      rw [List.mem_singleton.1 hx]
      rfl
    exact ⟨_, hresults, _, .refl _, hi ▸ .cons hone (.cons hone .nil)⟩
  obtain ⟨ss, -, hcounts, hall⟩ := plan_counts hp hplain (Option.isNone_iff_eq_none.1 hhaving)
    (Catalog.rootKeys_ne_nil hp) hkeyed .pgsql
  obtain ⟨records, hrecords, hsize⟩ := (hall root hroot hidentified _ hcarries).2 hindex
  have hone := (hcounts "total").symm.trans hcount
  simp only [Option.some.injEq, List.cons.injEq, Value.int.injEq, and_true] at hone
  exact ⟨p, hp, hcount, records, hrecords, hsize.trans (Int.ofNat_inj.1 hone)⟩

end ObjectQuery
