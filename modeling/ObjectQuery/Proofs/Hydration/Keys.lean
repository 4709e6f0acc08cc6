import ObjectQuery.Proofs.Columns.Derived
import ObjectQuery.Proofs.Hydration.Completed
import ObjectQuery.Proofs.Schema.Validity

/-! # What records are told apart and keyed by

A node of a hydration plan tells its records apart by the primary key, and may key them by a column.
Both are completed into the select list, and both are looked up there among the columns that count.
They can get lost on the way in a catalog that calls one column like the field of another: completion
then finds the other column, and a column whose field was selected before does not count.

* `ClauseSet.Leads`: a column is selected and counts;
* `plan_identifies`: when the nodes of a plan have the whole key;
* `plan_indexes`: when they have the column that keys their records. -/

namespace ObjectQuery

open HydrationPlan

variable {catalog : Catalog} {config : Config} {T : Text} {c : ClauseSet}
  {id : AliasId} {column : String} {component : Component} {x : Column} {f f' : SelectedField}
  {p : QueryPlan} {n : HydrationNode} {j : JoinNode} {i : Nat}

/-! ## Columns that count -/

/-- The column is selected, and no column of the alias before it comes under its field. -/
def ClauseSet.Leads (c : ClauseSet) (id : AliasId) (column : String) : Prop :=
  ∃ f, f.column = column ∧ (c.fieldsOf id).find? (·.field == f.field) = some f

theorem ClauseSet.leads_iff :
    c.Leads id column ↔ ∃ f ∈ selectedFields c.select id, f.column = column := by
  simp only [Leads, mem_selectedFields, and_comm]

theorem ClauseSet.Leads.mem_columns (h : c.Leads id column) : (id, column) ∈ c.columns := by
  obtain ⟨f, rfl, hfind⟩ := h
  exact ClauseSet.mem_columns.2 ⟨f, List.mem_of_find?_eq_some hfind, rfl⟩

theorem Component.isKey_iff :
    component.isKey column = true ↔ ∃ k ∈ component.primaryKeys, k.name = column := by
  rw [isKey, List.contains_iff_mem, keyNames, List.mem_map]

/-- The columns of an alias in the select list are columns of the component under their fields, those
of its primary key first. -/
structure ClauseSet.Draws (c : ClauseSet) (id : AliasId) (component : Component) : Prop where
  names : (component.columns.map (·.name)).Nodup
  drawn : ∀ f ∈ c.fieldsOf id, ∃ x ∈ component.columns, x.name = f.column ∧ x.fieldName = f.field
  ordered : (c.fieldsOf id).Pairwise fun f h =>
    component.isKey h.column = true → component.isKey f.column = true

namespace ClauseSet.Draws

variable (h : c.Draws id component)
include h

theorem field_eq (hf : f ∈ c.fieldsOf id) (hx : x ∈ component.columns) (he : x.name = f.column) :
    f.field = x.fieldName := by
  obtain ⟨y, hy, hn, hfield⟩ := h.drawn f hf
  rw [← hfield, List.inj_on_of_nodup_map h.names hy hx (hn.trans he.symm)]

/-- A column counts once at most. -/
theorem eq_of_column_eq (hf : f ∈ selectedFields c.select id) (hf' : f' ∈ selectedFields c.select id)
    (he : f.column = f'.column) : f = f' := by
  obtain ⟨x, hx, hn, hfield⟩ := h.drawn f (mem_fieldsOf_of_mem_selectedFields hf)
  have hfield' := h.field_eq (mem_fieldsOf_of_mem_selectedFields hf') hx (hn.trans he)
  exact List.inj_on_of_nodup_map (nodup_selectedFields c id) hf hf' (hfield.symm.trans hfield'.symm)

/-- Of the columns with one field the first counts; it belongs to the primary key when any does. -/
theorem exists_first (hf : f ∈ c.fieldsOf id) :
    ∃ f' ∈ c.fieldsOf id, f'.field = f.field ∧
      (c.fieldsOf id).find? (·.field == f'.field) = some f' ∧
      (component.isKey f.column = true → component.isKey f'.column = true) := by
  have hsome : ((c.fieldsOf id).find? (·.field == f.field)).isSome = true :=
    List.find?_isSome.2 ⟨f, hf, beq_self_eq_true f.field⟩
  obtain ⟨f', hfind⟩ := Option.isSome_iff_exists.1 hsome
  have hfield : f'.field = f.field := by simpa using List.find?_some hfind
  refine ⟨f', List.mem_of_find?_eq_some hfind, hfield, hfield ▸ hfind, fun hkey => ?_⟩
  obtain ⟨-, before, after, hsplit, hnot⟩ := List.find?_eq_some_iff_append.1 hfind
  have hordered := h.ordered
  rw [hsplit] at hf hordered
  rcases List.mem_append.1 hf with hf | hf
  · have hne := hnot f hf
    simp at hne
  · rcases List.mem_cons.1 hf with rfl | hf
    · exact hkey
    · exact (List.pairwise_cons.1 (List.pairwise_append.1 hordered).2.1).1 f hf hkey

/-- Where fields are not shared, every column that is selected counts. -/
theorem leads_of_mem_columns (hfields : (component.columns.map (·.fieldName)).Nodup)
    (hc : (id, column) ∈ c.columns) : c.Leads id column := by
  obtain ⟨f, hf, rfl⟩ := mem_columns.1 hc
  obtain ⟨f', hf', hfield, hfind, -⟩ := h.exists_first hf
  obtain ⟨x, hx, hn, he⟩ := h.drawn f hf
  obtain ⟨y, hy, hn', he'⟩ := h.drawn f' hf'
  have hxy : y = x := List.inj_on_of_nodup_map hfields hy hx (by rw [he', he, hfield])
  exact ⟨f', by rw [← hn', ← hn, hxy], hfind⟩

/-- The columns of the primary key all count when they are selected and do not share fields. -/
theorem leads_keys_iff : (∀ k ∈ component.primaryKeys, c.Leads id k.name) ↔
    (component.primaryKeys.map (·.fieldName)).Nodup ∧
      ∀ k ∈ component.primaryKeys, (id, k.name) ∈ c.columns := by
  have hcolumn {k : Column} (hk : k ∈ component.primaryKeys) : k ∈ component.columns :=
    (List.mem_filter.1 hk).1
  constructor
  · intro hleads
    refine ⟨List.Nodup.map_on (fun k hk k' hk' he => ?_) ?_, fun k hk =>
      (hleads k hk).mem_columns⟩
    · -- two of them with one field would both be the first that comes under it
      obtain ⟨f, hn, hfind⟩ := hleads k hk
      obtain ⟨f', hn', hfind'⟩ := hleads k' hk'
      have hfield := h.field_eq (List.mem_of_find?_eq_some hfind) (hcolumn hk) hn.symm
      have hfield' := h.field_eq (List.mem_of_find?_eq_some hfind') (hcolumn hk') hn'.symm
      rw [hfield, he, ← hfield', hfind'] at hfind
      obtain rfl := Option.some.inj hfind
      exact List.inj_on_of_nodup_map h.names (hcolumn hk) (hcolumn hk') (hn.symm.trans hn')
    · exact (List.Nodup.of_map _ h.names).filter _
  · rintro ⟨hnodup, hselected⟩ k hk
    obtain ⟨f, hf, hn⟩ := mem_columns.1 (hselected k hk)
    have hfield := h.field_eq hf (hcolumn hk) hn.symm
    obtain ⟨f', hf', he, hfind, hkey⟩ := h.exists_first hf
    obtain ⟨k', hk', hn'⟩ := Component.isKey_iff.1 (hkey (Component.isKey_iff.2 ⟨k, hk, hn.symm⟩))
    have hfield' := h.field_eq hf' (hcolumn hk') hn'
    have hkk : k' = k := List.inj_on_of_nodup_map hnodup hk' hk (by rw [← hfield', he, hfield])
    exact ⟨f', by rw [← hn', hkk], hfind⟩

end ClauseSet.Draws

/-! ## Identifiers -/

theorem ClauseSet.Draws.length_heldKeys_iff (h : c.Draws id component) :
    (heldKeys c id component).length = component.primaryKeys.length ↔
      ∀ k ∈ component.primaryKeys, c.Leads id k.name := by
  have hkeys : component.keyNames.Nodup := h.names.sublist (List.filter_sublist.map _)
  have hheld : ((heldKeys c id component).map (·.column)).Nodup := by
    refine List.Nodup.map_on (fun f hf f' hf' he => ?_)
      ((List.Nodup.of_map _ (nodup_selectedFields c id)).filter _)
    exact h.eq_of_column_eq (List.mem_filter.1 hf).1 (List.mem_filter.1 hf').1 he
  have hsub : ((heldKeys c id component).map (·.column)).Subperm component.keyNames := by
    refine hheld.subperm fun column hc => ?_
    obtain ⟨f, hf, rfl⟩ := List.mem_map.1 hc
    exact List.contains_iff_mem.1 (List.mem_filter.1 hf).2
  have hlength : component.keyNames.length = component.primaryKeys.length := List.length_map _
  simp only [ClauseSet.leads_iff]
  constructor
  · intro he k hk
    -- held keys are as many as there are, so none is missing
    have hperm := hsub.perm_of_length_le (by rw [List.length_map, he, hlength])
    obtain ⟨f, hf, hn⟩ := List.mem_map.1 (hperm.mem_iff.2 (List.mem_map_of_mem hk))
    exact ⟨f, (List.mem_filter.1 hf).1, hn⟩
  · intro hall
    have hall : component.keyNames.Subperm ((heldKeys c id component).map (·.column)) := by
      refine hkeys.subperm fun name hname => ?_
      obtain ⟨k, hk, rfl⟩ := List.mem_map.1 hname
      obtain ⟨f, hf, hn⟩ := hall k hk
      refine List.mem_map.2 ⟨f, List.mem_filter.2 ⟨hf, ?_⟩, hn⟩
      exact Component.isKey_iff.2 ⟨k, hk, hn.symm⟩
    have hlength' := (hsub.antisymm hall).length_eq
    rwa [List.length_map, hlength] at hlength'

theorem ClauseSet.Draws.exists_heldKey {k : Column} (h : c.Draws id component)
    (hk : k ∈ component.primaryKeys) (hl : c.Leads id k.name) :
    ∃ f ∈ heldKeys c id component, f.column = k.name ∧ f.field = k.fieldName := by
  obtain ⟨f, hf, hn⟩ := ClauseSet.leads_iff.1 hl
  exact ⟨f, List.mem_filter.2 ⟨hf, Component.isKey_iff.2 ⟨k, hk, hn.symm⟩⟩, hn,
    h.field_eq (mem_fieldsOf_of_mem_selectedFields hf) (List.mem_filter.1 hk).1 hn.symm⟩

theorem ClauseSet.Draws.heldKeys_perm (h : c.Draws id component)
    (hleads : ∀ k ∈ component.primaryKeys, c.Leads id k.name) :
    ((heldKeys c id component).map (·.field)).Perm (component.primaryKeys.map (·.fieldName)) := by
  have hnodup : ((heldKeys c id component).map (·.field)).Nodup :=
    (nodup_selectedFields c id).sublist (List.filter_sublist.map _)
  refine (List.perm_ext_iff_of_nodup hnodup (h.leads_keys_iff.1 hleads).1).2 fun s => ?_
  simp only [List.mem_map]
  constructor
  · rintro ⟨f, hf, rfl⟩
    obtain ⟨hf, hkey⟩ := List.mem_filter.1 hf
    obtain ⟨k, hk, hn⟩ := Component.isKey_iff.1 hkey
    exact ⟨k, hk,
      (h.field_eq (mem_fieldsOf_of_mem_selectedFields hf) (List.mem_filter.1 hk).1 hn).symm⟩
  · rintro ⟨k, hk, rfl⟩
    obtain ⟨f, hf, -, he⟩ := h.exists_heldKey hk (hleads k hk)
    exact ⟨f, hf, he⟩

/-- The identifier of a node has the columns of the primary key of its component, each once: the
result column that holds it, under its field. -/
structure HydrationNode.Identified (p : QueryPlan) (n : HydrationNode) (j : JoinNode) : Prop where
  keys : (n.identifier.map (·.key)).Perm (j.component.primaryKeys.map (·.fieldName))
  bound : ∀ k ∈ j.component.primaryKeys, ∃ f, .field f ∈ p.clauses.select ∧ f.owner = j.id ∧
    f.column = k.name ∧ ⟨k.fieldName, f.output⟩ ∈ n.identifier

theorem identified_of_leads (h : p.clauses.Draws j.id j.component)
    (hleads : ∀ k ∈ j.component.primaryKeys, p.clauses.Leads j.id k.name) :
    (nodeAt p i j).Identified p j := by
  have hid : (nodeAt p i j).identifier =
      (heldKeys p.clauses j.id j.component).map fun f => ⟨f.field, f.output⟩ := by
    rw [identifier_nodeAt, if_pos (h.length_heldKeys_iff.2 hleads)]
  refine ⟨?_, fun k hk => ?_⟩
  · rw [hid, List.map_map]
    exact h.heldKeys_perm hleads
  · obtain ⟨f, hf, hn, he⟩ := h.exists_heldKey hk (hleads k hk)
    obtain ⟨hmem, ho⟩ :=
      ClauseSet.mem_fieldsOf.1 (mem_fieldsOf_of_mem_selectedFields (List.mem_filter.1 hf).1)
    exact ⟨f, hmem, ho, hn, hid ▸ List.mem_map.2 ⟨f, hf, by rw [he]⟩⟩

/-- A node has the whole primary key or no identifier at all. -/
theorem identified_or_nil (h : p.clauses.Draws j.id j.component) (i : Nat) :
    (nodeAt p i j).Identified p j ∨ (nodeAt p i j).identifier = [] := by
  rw [identifier_nodeAt]
  split
  · exact .inl (identified_of_leads h (h.length_heldKeys_iff.1 ‹_›))
  · exact .inr rfl

theorem identified_iff (h : p.clauses.Draws j.id j.component) (hne : j.component.primaryKeys ≠ []) :
    (nodeAt p i j).Identified p j ↔
      ∀ k ∈ j.component.primaryKeys, p.clauses.Leads j.id k.name := by
  refine ⟨fun hidentified => ?_, identified_of_leads h⟩
  rw [← h.length_heldKeys_iff]
  by_contra hnot
  have hperm := hidentified.keys
  rw [identifier_nodeAt, if_neg hnot] at hperm
  exact hne (List.map_eq_nil_iff.1 hperm.nil_eq.symm)

/-! ## Keyed collections -/

/-- The records of a node are keyed by the given column of their alias. -/
def HydrationNode.Keyed (p : QueryPlan) (n : HydrationNode) (j : JoinNode) (column : String) : Prop :=
  ∃ f, .field f ∈ p.clauses.select ∧ f.owner = j.id ∧ f.column = column ∧ n.indexBy = some f.output

/-- What keys the records of a node is a column that counts. -/
theorem indexBy_eq_some {output : String} (h : p.clauses.Draws j.id j.component)
    (hj : j.indexBy = some column) : (nodeAt p i j).indexBy = some output ↔
      ∃ f ∈ selectedFields p.clauses.select j.id, f.column = column ∧ f.output = output := by
  have hmem {f : SelectedField} : f ∈ (selectedFields p.clauses.select j.id).filter
      (fun f => j.indexBy == some f.column) ↔
        f ∈ selectedFields p.clauses.select j.id ∧ f.column = column := by
    rw [List.mem_filter, hj, beq_iff_eq, Option.some.injEq, eq_comm (a := column)]
  rw [indexBy_nodeAt, Option.map_eq_some_iff]
  constructor
  · rintro ⟨f, hf, rfl⟩
    obtain ⟨hf, hn⟩ := hmem.1 (List.mem_of_getLast? hf)
    exact ⟨f, hf, hn, rfl⟩
  · rintro ⟨f, hf, hn, rfl⟩
    have hne := List.ne_nil_of_mem (hmem.2 ⟨hf, hn⟩)
    obtain ⟨hf', hn'⟩ := hmem.1 (List.getLast_mem hne)
    refine ⟨_, List.getLast?_eq_some_getLast hne, ?_⟩
    rw [h.eq_of_column_eq hf' hf (hn'.trans hn.symm)]

theorem keyed_iff (h : p.clauses.Draws j.id j.component) (hj : j.indexBy = some column) :
    (nodeAt p i j).Keyed p j column ↔ p.clauses.Leads j.id column := by
  rw [ClauseSet.leads_iff]
  constructor
  · rintro ⟨f, -, -, -, hindex⟩
    obtain ⟨f', hf', hn, -⟩ := (indexBy_eq_some h hj).1 hindex
    exact ⟨f', hf', hn⟩
  · rintro ⟨f, hf, hn⟩
    obtain ⟨hmem, ho⟩ := ClauseSet.mem_fieldsOf.1 (mem_fieldsOf_of_mem_selectedFields hf)
    exact ⟨f, hmem, ho, hn, (indexBy_eq_some h hj).2 ⟨f, hf, hn, rfl⟩⟩

/-- The records of a node are keyed by the column that they are to be keyed by, or not at all. -/
theorem keyed_or_none (h : p.clauses.Draws j.id j.component) (hj : j.indexBy = some column) (i : Nat) :
    (nodeAt p i j).Keyed p j column ∨ (nodeAt p i j).indexBy = none := by
  cases hindex : (nodeAt p i j).indexBy with
  | none => exact .inr rfl
  | some output =>
    obtain ⟨f, hf, hn, -⟩ := (indexBy_eq_some h hj).1 hindex
    exact .inl ((keyed_iff h hj).2 (ClauseSet.leads_iff.2 ⟨f, hf, hn⟩))

/-! ## Plans -/

/-- The select list is completed for the alias: every row is a record, or the query itself selects
something of the alias. -/
def ClauseSet.CompletedFor (c : ClauseSet) (id : AliasId) : Prop :=
  c.Plain ∨ ∃ i ∈ c.select, i.owner = id ∧ i.Asked

section
variable {ok : Spelling} {b : Bindings} (hp : PlanPlaced ⟨catalog.describe, config⟩ ok b c p)
  (hnodup : p.graph.aliases.Nodup)
include hp

theorem PlanPlaced.mem_components (hj : j ∈ p.graph.nodes) : j.component ∈ catalog.components :=
  Catalog.mem_of_describes (hp.joins.recorded.describes (hp.joins.components j hj))

include hnodup

theorem PlanPlaced.draws (hj : j ∈ p.graph.nodes) : p.clauses.Draws j.id j.component := by
  refine ⟨Catalog.nodup_columns (hp.mem_components hj), fun f hf => ?_, ?_⟩
  · obtain ⟨hf, ho⟩ := ClauseSet.mem_fieldsOf.1 hf
    obtain ⟨-, component, hc, x, hx, hn, hfield⟩ := hp.select _ hf
    rw [ho, hp.joins.components j hj] at hc
    cases hc
    exact ⟨x, hx, hn, hfield⟩
  · have hkeys := (List.pairwise_map.1 hp.keysFirst).sublist
      (List.filter_sublist (p := fun f : SelectedField => f.owner == j.id))
    refine hkeys.imp_of_mem fun {f h} hf hh hkey hkh => ?_
    have hiff (column : String) :
        p.graph.IsKey (j.id, column) ↔ j.component.isKey column = true := by
      rw [JoinGraph.IsKey, JoinGraph.node?_of_mem hnodup hj, Option.any_some]
    have hof : f.owner = j.id := beq_iff_eq.1 (List.mem_filter.1 hf).2
    have hoh : h.owner = j.id := beq_iff_eq.1 (List.mem_filter.1 hh).2
    rw [hof, hoh, hiff, hiff] at hkey
    exact hkey rfl hkh

variable (hj : j ∈ hydratedNodes p)
include hj

theorem PlanPlaced.mem_hydratedAliases_of_completedFor (h : p.clauses.CompletedFor j.id) :
    j.id ∈ hydratedAliases p.graph c := by
  rcases h with hplain | ⟨i, hi, ho, hasked⟩
  · refine hp.mem_hydratedAliases hnodup (fun component hc => ?_) hplain hj
    exact Catalog.columns_ne_nil (Catalog.mem_of_describes hc)
  · exact ho ▸ hp.mem_hydratedAliases_of_asked hi hasked

/-- A column that is required for the records of the alias is selected when it is found under its
physical name. -/
theorem PlanPlaced.mem_columns_of_required (hr : (j.id, x.name) ∈ requiredFields p.graph c)
    (hfound : j.component.column? x.name = some x) : (j.id, x.name) ∈ p.clauses.columns := by
  have hjs := hp.mem_nodes_of_mem_hydratedNodes hnodup hj
  rw [hp.columns_eq]
  refine mem_columns_completeSelection hr ?_
  rw [JoinGraph.node?_of_mem hnodup hjs, Option.bind_some, hfound]

theorem PlanPlaced.key_mem_columns {k : Column} (hplain : p.clauses.Plain)
    (hk : k ∈ j.component.primaryKeys) (hfound : j.component.column? k.name = some k) :
    (j.id, k.name) ∈ p.clauses.columns := by
  have hjs := hp.mem_nodes_of_mem_hydratedNodes hnodup hj
  have ha := hp.mem_hydratedAliases_of_completedFor hnodup hj (.inl hplain)
  refine hp.mem_columns_of_required hnodup hj ?_ hfound
  exact key_mem_requiredFields (hp.plain_iff.1 hplain) ha (JoinGraph.node?_of_mem hnodup hjs)
    (List.mem_map_of_mem hk)

theorem PlanPlaced.index_mem_columns (hcompleted : p.clauses.CompletedFor j.id)
    (hi : j.indexBy = some column)
    (hfound : ∀ x ∈ j.component.columns, j.component.column? x.name = some x) :
    (j.id, column) ∈ p.clauses.columns := by
  have hjs := hp.mem_nodes_of_mem_hydratedNodes hnodup hj
  have ha := hp.mem_hydratedAliases_of_completedFor hnodup hj hcompleted
  obtain ⟨x, hx, rfl⟩ := hp.joins.indexed j hjs column hi
  exact hp.mem_columns_of_required hnodup hj (index_mem_requiredFields ha hjs hi) (hfound x hx)

end

/-- The columns are found under their physical names, and no two of them come under one field. -/
def Component.ToldApart (component : Component) (columns : List Column) : Prop :=
  (columns.map (·.fieldName)).Nodup ∧ ∀ x ∈ columns, component.column? x.name = some x

instance (component : Component) (columns : List Column) : Decidable (component.ToldApart columns) :=
  inferInstanceAs (Decidable (_ ∧ _))

/-- What holds of all nodes holds of the first, which is made for the root. -/
theorem exists_root {env : Surroundings} {R : HydrationNode → JoinNode → Prop}
    (h : plan env T = .ok p) (hall : List.Forall₂ R (ofQueryPlan p).nodes (hydratedNodes p)) :
    ∃ n, (ofQueryPlan p).nodes[0]? = some n ∧ R n p.graph.root := by
  obtain ⟨b, c, hp⟩ := plan_placed env.spells_any h
  obtain ⟨N, ho⟩ := plan_over h
  obtain ⟨q, -, hq⟩ := (plan_spec h).query
  obtain ⟨joins, hjoins⟩ := List.head?_eq_some_iff.1 (hp.head_hydratedNodes hq.graph.nodup ho)
  rw [hjoins] at hall
  obtain ⟨n, nodes, hn, -, hnodes⟩ := List.forall₂_cons_right_iff.1 hall
  exact ⟨n, by rw [hnodes]; rfl, hn⟩

namespace Sample

/-- The field of one column has the name of another, the primary key. -/
def shadowedKey : Component where
  name := "Doc"
  table := "docs"
  columns := [⟨"code", some "id", "string", false⟩, ⟨"id", some "key", "integer", true⟩]
  relations := []
  inheritance := none
  orderBy := none

/-- The field of the primary key has the name of another column. -/
def shadowingKey : Component where
  name := "Doc"
  table := "docs"
  columns := [⟨"code", some "slug", "string", true⟩, ⟨"slug", some "key", "string", false⟩]
  relations := []
  inheritance := none
  orderBy := none

/-- Documents. -/
def shadowedDocs : Catalog where
  name := none
  components := [shadowedKey]
  valid := by decide +kernel

/-- Documents. -/
def shadowingDocs : Catalog where
  name := none
  components := [shadowingKey]
  valid := by decide +kernel

/-- The codes of documents. -/
def codes : Text := "SELECT d.code FROM Doc d".toList

/-- The codes of documents, by another column. -/
def codesByKey : Text := "SELECT d.code FROM Doc d INDEXBY d.key".toList

/-- Users by their numbers. -/
def keyed : Text := "SELECT u.id FROM User u INDEXBY u.id".toList

end Sample

/-- Where every row is a record, a node of the hydration plan has the whole primary key of its
component or no identifier at all. It has the key just when the columns of the key are all selected
and do not come under one field; that they are found under their physical names is enough for their
selection. -/
theorem plan_identifies (h : plan ⟨catalog.describe, config⟩ T = .ok p) (hplain : p.clauses.Plain) :
    List.Forall₂ (fun n j =>
      (n.Identified p j ∨ n.identifier = []) ∧
      (n.Identified p j ↔ (j.component.primaryKeys.map (·.fieldName)).Nodup ∧
        ∀ k ∈ j.component.primaryKeys, (j.id, k.name) ∈ p.clauses.columns) ∧
      (j.component.ToldApart j.component.primaryKeys → n.Identified p j))
      (ofQueryPlan p).nodes (hydratedNodes p) := by
  obtain ⟨b, c, hp⟩ := plan_placed (Surroundings.spells_any _) h
  obtain ⟨q, -, hq⟩ := (plan_spec h).query
  have hnodup := hq.graph.nodup
  refine forall₂_nodes fun i j hj => ?_
  have hj := List.mem_of_getElem? hj
  have hjs := hp.mem_nodes_of_mem_hydratedNodes hnodup hj
  have hdraws := hp.draws hnodup hjs
  have hiff := identified_iff (i := i) hdraws (Catalog.primaryKeys_ne_nil (hp.mem_components hjs))
  rw [hdraws.leads_keys_iff] at hiff
  refine ⟨identified_or_nil hdraws i, hiff, fun ⟨hfields, hfound⟩ => ?_⟩
  exact hiff.2 ⟨hfields, fun k hk => hp.key_mem_columns hnodup hj hplain hk (hfound k hk)⟩

/-- Users are told apart by their numbers. -/
theorem plan_identifies_keyed : ∃ p, plan ⟨Sample.directory.describe, {}⟩ Sample.keyed = .ok p ∧
    p.clauses.Plain ∧ ∃ n, (ofQueryPlan p).nodes[0]? = some n ∧ n.Identified p p.graph.root := by
  obtain ⟨p, hp, hplain, hroot⟩ : ∃ p,
      plan ⟨Sample.directory.describe, {}⟩ Sample.keyed = .ok p ∧
        (p.clauses.hasAggregates = false ∧ p.clauses.groupBy = []) ∧
        p.graph.root.component = Sample.user := by decide +kernel
  obtain ⟨n, hn, -, -, hidentified⟩ := exists_root hp (plan_identifies hp hplain)
  exact ⟨p, hp, hplain, n, hn, hidentified (by rw [hroot]; decide)⟩

/-- The key is looked up under its physical name, which is the field of another column first. -/
theorem identifier_lost : ∃ p, plan ⟨Sample.shadowedDocs.describe, {}⟩ Sample.codes = .ok p ∧
    p.clauses.Plain ∧ ¬List.Forall₂ (fun n j => n.Identified p j)
      (ofQueryPlan p).nodes (hydratedNodes p) := by
  obtain ⟨p, hp, hplain, hroot, hcolumns⟩ : ∃ p,
      plan ⟨Sample.shadowedDocs.describe, {}⟩ Sample.codes = .ok p ∧
        (p.clauses.hasAggregates = false ∧ p.clauses.groupBy = []) ∧
        p.graph.root.component = Sample.shadowedKey ∧
        p.clauses.columns = [(0, "code")] := by decide +kernel
  refine ⟨p, hp, hplain, fun hall => ?_⟩
  obtain ⟨n, -, hidentified⟩ := exists_root hp hall
  obtain ⟨f, hf, ho, hn, -⟩ := hidentified.bound ⟨"id", some "key", "integer", true⟩
    (by rw [hroot]; decide)
  have hmem : (p.graph.root.id, "id") ∈ p.clauses.columns :=
    ClauseSet.mem_columns.2 ⟨f, ClauseSet.mem_fieldsOf.2 ⟨hf, ho⟩, hn⟩
  simp [hcolumns] at hmem

/-- The records of a node are keyed by the column that the query gives for them, or not at all. They
are keyed just when the column is selected and no column of the alias before it comes under its field;
where the select list is completed for the alias, it is enough that the columns of the component are
told apart. -/
theorem plan_indexes (h : plan ⟨catalog.describe, config⟩ T = .ok p) :
    List.Forall₂ (fun n j => ∀ column ∈ j.indexBy,
      (n.Keyed p j column ∨ n.indexBy = none) ∧
      (n.Keyed p j column ↔ p.clauses.Leads j.id column) ∧
      (j.component.ToldApart j.component.columns → p.clauses.CompletedFor j.id →
        n.Keyed p j column))
      (ofQueryPlan p).nodes (hydratedNodes p) := by
  obtain ⟨b, c, hp⟩ := plan_placed (Surroundings.spells_any _) h
  obtain ⟨q, -, hq⟩ := (plan_spec h).query
  have hnodup := hq.graph.nodup
  refine forall₂_nodes fun i j hj column hi => ?_
  have hj := List.mem_of_getElem? hj
  have hdraws := hp.draws hnodup (hp.mem_nodes_of_mem_hydratedNodes hnodup hj)
  refine ⟨keyed_or_none hdraws hi i, keyed_iff hdraws hi, fun ⟨hfields, hfound⟩ hcompleted => ?_⟩
  have hcolumn := hp.index_mem_columns hnodup hj hcompleted hi hfound
  exact (keyed_iff hdraws hi).2 (hdraws.leads_of_mem_columns hfields hcolumn)

/-- Users are keyed by their numbers. -/
theorem plan_indexes_keyed : ∃ p, plan ⟨Sample.directory.describe, {}⟩ Sample.keyed = .ok p ∧
    ∃ n, (ofQueryPlan p).nodes[0]? = some n ∧ n.Keyed p p.graph.root "id" := by
  obtain ⟨p, hp, hplain, hroot, hindex⟩ : ∃ p,
      plan ⟨Sample.directory.describe, {}⟩ Sample.keyed = .ok p ∧
        (p.clauses.hasAggregates = false ∧ p.clauses.groupBy = []) ∧
        p.graph.root.component = Sample.user ∧ p.graph.root.indexBy = some "id" := by
    decide +kernel
  obtain ⟨n, hn, hall⟩ := exists_root hp (plan_indexes hp)
  obtain ⟨-, -, hkeyed⟩ := hall "id" hindex
  exact ⟨p, hp, n, hn, hkeyed (by rw [hroot]; decide) (.inl hplain)⟩

/-- What keys the records is looked up under its physical name, the field of the primary key. -/
theorem index_lost : ∃ p, plan ⟨Sample.shadowingDocs.describe, {}⟩ Sample.codesByKey = .ok p ∧
    ¬List.Forall₂ (fun n j => ∀ column ∈ j.indexBy, n.Keyed p j column)
      (ofQueryPlan p).nodes (hydratedNodes p) := by
  obtain ⟨p, hp, hindex, hcolumns⟩ : ∃ p,
      plan ⟨Sample.shadowingDocs.describe, {}⟩ Sample.codesByKey = .ok p ∧
        p.graph.root.indexBy = some "slug" ∧ p.clauses.columns = [(0, "code")] := by
    decide +kernel
  refine ⟨p, hp, fun hall => ?_⟩
  obtain ⟨n, -, hkeyed⟩ := exists_root hp hall
  obtain ⟨f, hf, ho, hn, -⟩ := hkeyed "slug" hindex
  have hmem : (p.graph.root.id, "slug") ∈ p.clauses.columns :=
    ClauseSet.mem_columns.2 ⟨f, ClauseSet.mem_fieldsOf.2 ⟨hf, ho⟩, hn⟩
  simp [hcolumns] at hmem

end ObjectQuery
