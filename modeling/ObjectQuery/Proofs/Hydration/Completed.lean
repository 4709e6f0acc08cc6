import ObjectQuery.Proofs.Hydration.Selected

/-! # What completion selects

A select list is completed for the aliases that records are made for. Where every row is a record,
these are the aliases of the nodes of the hydration plan; where rows are grouped, they are those that
the query itself selects something of.

* `mem_columns_completeSelection`: what is required and found is selected;
* `PlanPlaced.mem_hydratedAliases`, `PlanPlaced.mem_hydratedAliases_of_asked`: the aliases that records
  are made for. -/

namespace ObjectQuery

open HydrationPlan

variable {g : JoinGraph} {c : ClauseSet} {id a : AliasId} {column k : String} {x : Column}
  {f : SelectedField} {i : SelectItem} {j : JoinNode} {items : List SelectItem}
  {required : List (AliasId × String)} {emitted : List AliasId}

/-! ## Missing columns -/

theorem exists_isField_missingFields (items : List SelectItem) (hr : (id, column) ∈ required)
    (hx : (g.node? id).bind (·.component.column? column) = some x) :
    ∃ i ∈ items ++ missingFields g items required, i.isField id x.name = true := by
  induction required generalizing items with
  | nil => cases hr
  | cons r required ih =>
    obtain ⟨id', column'⟩ := r
    rcases List.mem_cons.1 hr with he | hr
    · obtain ⟨rfl, rfl⟩ := Prod.mk.inj he
      rw [missingFields, hx]
      dsimp only
      split
      · rename_i hany
        obtain ⟨i, hi, hf⟩ := List.any_eq_true.1 hany
        exact ⟨i, List.mem_append_left _ hi, hf⟩
      · exact ⟨.ofColumn id x true, List.mem_append_right _ List.mem_cons_self,
          SelectItem.isField_field.trans (beq_self_eq_true _)⟩
    · rw [missingFields]
      split
      · exact ih items hr
      · split
        · exact ih items hr
        · obtain ⟨i, hi, hf⟩ := ih (items ++ [.ofColumn id' _ true]) hr
          refine ⟨i, ?_, hf⟩
          rwa [List.append_assoc, List.singleton_append] at hi

/-- What is added to a select list is marked as such. -/
theorem implicit_of_mem_missingFields (h : .field f ∈ missingFields g items required) :
    f.implicit = true := by
  induction required generalizing items with
  | nil => cases h
  | cons r required ih =>
    obtain ⟨id, column⟩ := r
    simp only [missingFields] at h
    split at h
    · exact ih h
    · split at h
      · exact ih h
      · rcases List.mem_cons.1 h with he | h
        · cases he
          rfl
        · exact ih h

/-- A column that is required and found is selected. -/
theorem mem_columns_completeSelection (hr : (id, column) ∈ requiredFields g c)
    (hx : (g.node? id).bind (·.component.column? column) = some x) :
    (id, x.name) ∈ (completeSelection g emitted c).columns := by
  obtain ⟨i, hi, hf⟩ := exists_isField_missingFields c.select hr hx
  cases i with
  | field f =>
    rw [SelectItem.isField_field, beq_iff_eq] at hf
    rw [List.mem_append, ← mem_select_completeSelection] at hi
    exact List.mem_map.2 ⟨f, SelectItem.mem_filterMap_field?.2 hi, hf⟩
  | expression => cases hf

/-! ## Required columns -/

theorem key_mem_requiredFields (hc : c.Plain) (ha : id ∈ hydratedAliases g c)
    (hj : g.node? id = some j) (hk : k ∈ j.component.keyNames) : (id, k) ∈ requiredFields g c := by
  have hkeys : (id, k) ∈ aliasKeys g (hydratedAliases g c) := by
    refine List.mem_flatMap.2 ⟨id, ha, List.mem_map.2 ⟨k, ?_, rfl⟩⟩
    rw [hj]
    simpa using hk
  rw [requiredFields, ClauseSet.plain_iff.1 hc]
  exact List.mem_append_left _ (List.mem_append_right _ hkeys)

theorem index_mem_requiredFields (ha : j.id ∈ hydratedAliases g c) (hj : j ∈ g.nodes)
    (hi : j.indexBy = some column) : (j.id, column) ∈ requiredFields g c := by
  refine List.mem_append_right _ (List.mem_filterMap.2 ⟨j, hj, ?_⟩)
  rw [if_pos ha, hi, Option.map_some]

/-- Where every row is a record, columns are required of the aliases that records are made for. -/
theorem mem_hydratedAliases_of_required (hc : c.Plain) :
    ∀ r ∈ requiredFields g c, r.1 ∈ hydratedAliases g c := by
  intro r hr
  refine (mem_groupedKeys_or_hydratedAliases hr).resolve_left fun hr => ?_
  rw [hc.2] at hr
  cases hr

/-! ## Aliases that records are made for -/

/-- The records of the root hold, directly or not, those of all other joins that are no bridges. -/
theorem JoinGraph.Rooted.root_mem_ancestors (h : g.Rooted) (hnodup : g.aliases.Nodup)
    (ha : a ∈ g.records) (hne : a ≠ g.root.id) : g.root.id ∈ g.ancestors a := by
  obtain ⟨n, hn, -, rfl⟩ := mem_records.1 ha
  obtain ⟨s, hs⟩ := Option.ne_none_iff_exists'.1 fun hnone => hne ((h.top n hn).1 hnone)
  obtain ⟨-, k, -, -, hfind⟩ := h.findSome?_ancestors hnodup
    (List.mem_singleton_self g.root.id) hn hs fun _ _ => Iff.rfl
  obtain ⟨x, hx, hk⟩ := List.exists_of_findSome?_eq_some hfind
  have hroot : x ∈ [g.root.id] := List.isSome_idxOf?.1 (by rw [hk]; rfl)
  exact List.mem_singleton.1 hroot ▸ hx

theorem ClauseSet.hasAggregates_iff :
    c.hasAggregates = true ↔ ∃ e ∈ c.selectExprs, e.aggregate = true := by
  simp only [hasAggregates, List.any_eq_true, selectExprs, List.mem_filterMap]
  constructor
  · rintro ⟨i, hi, he⟩
    cases i with
    | field => cases he
    | expression o k e name => exact ⟨e, ⟨_, hi, rfl⟩, he⟩
  · rintro ⟨e, ⟨i, hi, hie⟩, he⟩
    cases i with
    | field => cases hie
    | expression o k e name =>
      cases hie
      exact ⟨_, hi, he⟩

/-- The query itself selects the item. -/
def SelectItem.Asked (i : SelectItem) : Prop := ∀ f ∈ i.field?, f.implicit = false

section
variable {env : Surroundings} {ok : Spelling} {b : Bindings} {p : QueryPlan}
  (hp : PlanPlaced env ok b c p)
include hp

theorem PlanPlaced.columns_eq :
    p.clauses.columns = (completeSelection p.graph p.emitted c).columns := by
  obtain ⟨ts, he⟩ := hp.completed
  rw [he]
  exact ClauseSet.columns_nameOutputs

theorem PlanPlaced.keysFirst : p.graph.KeysFirst p.clauses.columns :=
  hp.columns_eq ▸ keysFirst_completeSelection p.emitted

theorem PlanPlaced.reselects : Reselects Set.univ c.select p.clauses.select := by
  obtain ⟨ts, he⟩ := hp.completed
  rw [he]
  exact completed_reselects (fun _ _ _ _ _ => trivial) (fun _ _ => trivial) _ _ _

theorem PlanPlaced.plain_iff : p.clauses.Plain ↔ c.Plain := by
  have hgroup : p.clauses.groupBy = c.groupBy := by
    obtain ⟨ts, he⟩ := hp.completed
    rw [he]
    rfl
  have hselect (e : Expr) : e ∈ p.clauses.selectExprs ↔ e ∈ c.selectExprs :=
    hp.reselects.selectExprs
  rw [ClauseSet.Plain, ClauseSet.Plain, hgroup, ← Bool.not_eq_true, ← Bool.not_eq_true,
    ClauseSet.hasAggregates_iff, ClauseSet.hasAggregates_iff]
  simp only [hselect]

/-- The query itself selects something of the alias. -/
theorem PlanPlaced.mem_hydratedAliases_of_asked (hi : i ∈ p.clauses.select) (hasked : i.Asked) :
    i.owner ∈ hydratedAliases p.graph c := by
  refine mem_hydratedAliases_iff.2 ?_
  cases i with
  | expression o k e name =>
    exact ⟨_, (hp.reselects.expression o k e name).1 hi, .inl rfl⟩
  | field f =>
    obtain ⟨ts, he⟩ := hp.completed
    rw [he] at hi
    obtain ⟨i', hi', hr⟩ := exists_left_of_mem (nameOutputsFrom_spec p.aliases [] _) hi
    obtain ⟨-, f', hf', he'⟩ := hr.field f rfl
    cases i' with
    | expression => cases hf'
    | field =>
      cases hf'
      have howner : f.owner = f'.owner := by rw [he']
      have himplicit : f'.implicit = false := by
        rw [← hasked f rfl, he']
      refine ⟨_, (mem_select_completeSelection.1 hi').resolve_right fun hmissing => ?_, .inl howner⟩
      rw [implicit_of_mem_missingFields hmissing] at himplicit
      cases himplicit

/-- Where every row is a record, the nodes of the hydration plan are made for the aliases that the
select list is completed for. -/
theorem PlanPlaced.mem_hydratedAliases (hnodup : p.graph.aliases.Nodup)
    (hcols : ∀ component, env.Describes component → component.columns ≠ [])
    (hplain : p.clauses.Plain) (hj : j ∈ hydratedNodes p) :
    j.id ∈ hydratedAliases p.graph c := by
  have hplain := hp.plain_iff.1 hplain
  obtain ⟨-, hmade⟩ := Bool.and_eq_true_iff.1 (List.mem_filter.1 hj).2
  rcases Bool.or_eq_true_iff.1 hmade with hroot | hfield
  · obtain ⟨i, hi⟩ := List.exists_mem_of_ne_nil _ (hp.nonempty hcols)
    have howner : i.owner ∈ p.graph.records :=
      hp.reads _ (ClauseSet.mem_reads.2 (.inl ⟨i, hi, rfl⟩))
    refine mem_hydratedAliases_iff.2 ⟨i, hi, ?_⟩
    rw [beq_iff_eq.1 hroot]
    by_cases he : p.graph.root.id = i.owner
    · exact .inl he
    · exact .inr ⟨hplain, hp.joins.rooted.root_mem_ancestors hnodup howner (Ne.symm he)⟩
  · obtain ⟨f, hf, ho⟩ := List.any_eq_true.1 hfield
    have hmem : (f.owner, f.column) ∈ p.clauses.columns := List.mem_map_of_mem hf
    rw [hp.columns_eq] at hmem
    obtain ⟨f', hf', he⟩ := List.mem_map.1 hmem
    rw [← beq_iff_eq.1 ho, ← (Prod.mk.inj he).1]
    rcases mem_select_completeSelection.1 (SelectItem.mem_filterMap_field?.1 hf') with hi | hi
    · exact mem_hydratedAliases_iff.2 ⟨_, hi, .inl rfl⟩
    · have howners : ∀ r ∈ requiredFields p.graph c, r.1 ∈ {a | a ∈ hydratedAliases p.graph c} :=
        mem_hydratedAliases_of_required hplain
      obtain ⟨_, ⟨⟩, ho'⟩ := missingFields_owners howners _ hi
      exact ho'

end

end ObjectQuery
