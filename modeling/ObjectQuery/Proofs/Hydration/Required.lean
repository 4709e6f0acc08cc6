import ObjectQuery.Proofs.Hydration.Completed

/-! # What completing a select list adds

Completing a select list adds the columns that the records of the result are made with, each of them
once, and puts the list into order; nothing else happens to it (`ClauseSet.Completes`).

* `JoinGraph.mem_ancestors_iff`: the records that hold the records of an alias, directly or not;
* `mem_requiredFields_iff`: the columns that have to be selected;
* `missingFields_lacks`: the columns that are added;
* `completeSelection_completes`: the completed select list. -/

namespace ObjectQuery

variable {g : JoinGraph} {c : ClauseSet} {id a : AliasId} {column : String} {items : List SelectItem}
  {required : List (AliasId × String)} {added : List SelectedField} {x : Column} {met : List AliasId}
  {next : Option AliasId} {fuel : Nat}

/-! ## Records above records -/

namespace JoinGraph

theorem mem_aliases_of_above (h : g.Above id a) : id ∈ g.aliases := by
  obtain ⟨n, hn, -⟩ := Option.bind_eq_some_iff.1 h
  have hid : n.id = id := by simpa using List.find?_some hn
  exact hid ▸ List.mem_map_of_mem (List.mem_of_find?_eq_some hn)

/-- A walk that has met `met` and goes on with `next` misses no alias above those it meets: before
its fuel is used up, it would have met more aliases than there are. -/
theorem ancestorsFrom_closed (hnodup : met.Nodup)
    (hmet : ∀ a ∈ met, ∀ s, g.Above a s → s ∈ met ∨ next = some s)
    (hknown : next.isSome → ∀ a ∈ met, a ∈ g.aliases) (hfuel : g.nodes.length < fuel + met.length) :
    (∀ s, next = some s → s ∈ g.ancestorsFrom fuel met next) ∧
      ∀ a ∈ g.ancestorsFrom fuel met next, ∀ s, g.Above a s →
        s ∈ g.ancestorsFrom fuel met next := by
  induction fuel generalizing met next with
  | zero =>
    cases next with
    | none => exact ⟨nofun, fun a ha s hs => (hmet a ha s hs).resolve_right nofun⟩
    | some id =>
      have hle := (hnodup.subperm (hknown rfl)).length_le
      rw [aliases, List.length_map] at hle
      omega
  | succ fuel ih =>
    cases next with
    | none => exact ⟨nofun, fun a ha s hs => (hmet a ha s hs).resolve_right nofun⟩
    | some id =>
      rw [ancestorsFrom]
      split
      · rename_i hid
        have hid : id ∈ met := List.contains_iff_mem.1 hid
        refine ⟨fun s hs => Option.some.inj hs ▸ hid, fun a ha s hs => ?_⟩
        exact (hmet a ha s hs).elim (fun h => h) fun h => Option.some.inj h ▸ hid
      · rename_i hid
        have hid : id ∉ met := fun h => hid (List.contains_iff_mem.2 h)
        have hmet' : ∀ a ∈ met ++ [id], ∀ s, g.Above a s →
            s ∈ met ++ [id] ∨ (g.node? id).bind (·.source) = some s := by
          intro a ha s hs
          rcases List.mem_append.1 ha with ha | ha
          · refine .inl ((hmet a ha s hs).elim (List.mem_append_left _) fun h => ?_)
            exact List.mem_append_right _ (List.mem_singleton.2 (Option.some.inj h).symm)
          · rw [List.mem_singleton.1 ha] at hs
            exact .inr hs
        have hknown' : ((g.node? id).bind (·.source)).isSome → ∀ a ∈ met ++ [id], a ∈ g.aliases := by
          intro hsome
          obtain ⟨s, hs⟩ := Option.isSome_iff_exists.1 hsome
          exact List.forall_mem_append.2 ⟨hknown rfl, List.forall_mem_singleton.2
            (mem_aliases_of_above hs)⟩
        have hnodup' : (met ++ [id]).Nodup :=
          List.nodup_append_comm.1 (List.nodup_cons.2 ⟨hid, hnodup⟩)
        refine ⟨fun s hs => ?_, (ih hnodup' hmet' hknown' ?_).2⟩
        · obtain ⟨rest, he⟩ := g.ancestorsFrom_eq_append fuel (met ++ [id])
            ((g.node? id).bind (·.source))
          rw [he, ← Option.some.inj hs]
          exact List.mem_append_left _ (List.mem_append_right _ (List.mem_singleton_self _))
        · rw [List.length_append, List.length_singleton]
          omega

theorem mem_ancestors_iff : a ∈ g.ancestors id ↔ Relation.TransGen g.Above id a := by
  have hclosed : (∀ s, (g.node? id).bind (·.source) = some s → s ∈ g.ancestors id) ∧
      ∀ a ∈ g.ancestors id, ∀ s, g.Above a s → s ∈ g.ancestors id :=
    ancestorsFrom_closed List.nodup_nil nofun (fun _ _ h => nomatch h) (Nat.lt_succ_self _)
  have habove : ∀ a ∈ g.ancestors id, a ∈ {a | Relation.TransGen g.Above id a} :=
    mem_ancestorsFrom (fun _ _ h hs => h.tail hs) (fun _ h => nomatch h) fun a ha => .single ha
  constructor
  · exact habove a
  · intro h
    induction h with
    | single hs => exact hclosed.1 _ hs
    | tail _ hs ih => exact hclosed.2 _ ih _ hs

end JoinGraph

/-! ## Required columns -/

/-- Records are made for the alias: an item of the select list belongs to it or, where every row is a
record, to an alias whose records those of this one hold. -/
def Hydrated (g : JoinGraph) (c : ClauseSet) (a : AliasId) : Prop :=
  ∃ i ∈ c.select, a = i.owner ∨ c.Plain ∧ Relation.TransGen g.Above i.owner a

/-- The column of the alias has to be selected, under the name that it is called by. -/
inductive Required (g : JoinGraph) (c : ClauseSet) : AliasId → String → Prop
  /-- Rows are grouped by a column of a primary key. -/
  | grouped {e : Expr} {id : AliasId} {column : String} (he : e ∈ c.groupBy)
    (hcolumn : e.asColumn? = some (id, column)) (hkey : g.IsKey (id, column)) :
    Required g c id column
  /-- Where every row is a record, it is known by its primary key. -/
  | key {id : AliasId} {n : JoinNode} {column : String} (hplain : c.Plain) (hid : Hydrated g c id)
    (hn : g.node? id = some n) (hkey : column ∈ n.component.keyNames) : Required g c id column
  /-- The column keys a collection of records. -/
  | index {n : JoinNode} {column : String} (hn : n ∈ g.nodes) (hid : Hydrated g c n.id)
    (hindex : n.indexBy = some column) : Required g c n.id column

theorem mem_hydratedAliases_iff_hydrated : a ∈ hydratedAliases g c ↔ Hydrated g c a := by
  simp only [mem_hydratedAliases_iff, Hydrated, JoinGraph.mem_ancestors_iff]

theorem mem_requiredFields_iff : (id, column) ∈ requiredFields g c ↔ Required g c id column := by
  constructor
  · intro h
    rcases List.mem_append.1 h with h | h
    · rcases List.mem_append.1 h with h | h
      · obtain ⟨hcolumn, hkey⟩ := List.mem_filter.1 h
        obtain ⟨e, he, hcolumn⟩ := List.mem_filterMap.1 hcolumn
        exact .grouped he hcolumn hkey
      · split at h
        · cases h
        · rename_i hplain
          obtain ⟨a, ha, h⟩ := List.mem_flatMap.1 h
          obtain ⟨key, hkey, he⟩ := List.mem_map.1 h
          obtain ⟨rfl, rfl⟩ := Prod.mk.inj he
          obtain ⟨n, hn, hkey⟩ := List.mem_flatMap.1 hkey
          exact .key (ClauseSet.plain_iff.2 (Bool.eq_false_iff.2 hplain))
            (mem_hydratedAliases_iff_hydrated.1 ha) (Option.mem_toList.1 hn) hkey
    · obtain ⟨n, hn, h⟩ := List.mem_filterMap.1 h
      split at h
      · rename_i hid
        obtain ⟨_, hindex, he⟩ := Option.map_eq_some_iff.1 h
        obtain ⟨rfl, rfl⟩ := Prod.mk.inj he
        exact .index hn (mem_hydratedAliases_iff_hydrated.1 hid) hindex
      · cases h
  · intro h
    cases h with
    | grouped he hcolumn hkey =>
      refine List.mem_append_left _ (List.mem_append_left _ (List.mem_filter.2 ⟨?_, hkey⟩))
      exact List.mem_filterMap.2 ⟨_, he, hcolumn⟩
    | key hplain hid hn hkey =>
      exact key_mem_requiredFields hplain (mem_hydratedAliases_iff_hydrated.2 hid) hn hkey
    | index hn hid hindex =>
      exact index_mem_requiredFields (mem_hydratedAliases_iff_hydrated.2 hid) hn hindex

/-! ## Missing columns -/

/-- The columns `added` are required, and the items lack them; each is there once. -/
structure Lacks (g : JoinGraph) (items : List SelectItem) (required : List (AliasId × String))
    (added : List SelectedField) : Prop where
  distinct : (added.map fun f => (f.owner, f.column)).Nodup
  fresh : ∀ f ∈ added, ∀ f', .field f' ∈ items → (f'.owner, f'.column) ≠ (f.owner, f.column)
  only : ∀ f ∈ added, ∃ column x, (f.owner, column) ∈ required ∧
    (g.node? f.owner).bind (·.component.column? column) = some x ∧
    SelectItem.field f = .ofColumn f.owner x true

theorem Lacks.skip {r : AliasId × String} (h : Lacks g items required added) :
    Lacks g items (r :: required) added where
  distinct := h.distinct
  fresh := h.fresh
  only f hf := by
    obtain ⟨column, x, hr, hx⟩ := h.only f hf
    exact ⟨column, x, List.mem_cons_of_mem _ hr, hx⟩

theorem Lacks.add (hx : (g.node? id).bind (·.component.column? column) = some x)
    (hnew : ¬items.any (·.isField id x.name) = true)
    (h : Lacks g (items ++ [.ofColumn id x true]) required added) :
    Lacks g items ((id, column) :: required) (⟨id, x.name, x.fieldName, "", true⟩ :: added) where
  distinct := by
    refine List.nodup_cons.2 ⟨fun hmem => ?_, h.distinct⟩
    obtain ⟨f, hf, hplace⟩ := List.mem_map.1 hmem
    exact h.fresh f hf _ (List.mem_append_right _ List.mem_cons_self) hplace.symm
  fresh := List.forall_mem_cons.2 ⟨fun _ hf' hplace =>
    hnew (List.any_eq_true.2 ⟨_, hf', beq_iff_eq.2 hplace⟩),
    fun f hf f' hf' => h.fresh f hf f' (List.mem_append_left _ hf')⟩
  only := List.forall_mem_cons.2 ⟨⟨column, x, List.mem_cons_self, hx, rfl⟩, h.skip.only⟩

theorem missingFields_lacks (items : List SelectItem) (required : List (AliasId × String)) :
    ∃ added, missingFields g items required = added.map .field ∧ Lacks g items required added := by
  induction required generalizing items with
  | nil => exact ⟨[], rfl, List.nodup_nil, nofun, nofun⟩
  | cons r required ih =>
    obtain ⟨id, column⟩ := r
    cases hx : (g.node? id).bind (·.component.column? column) with
    | none =>
      obtain ⟨added, he, h⟩ := ih items
      exact ⟨added, by rw [missingFields, hx, he], h.skip⟩
    | some x =>
      by_cases hany : items.any (·.isField id x.name) = true
      · obtain ⟨added, he, h⟩ := ih items
        exact ⟨added, by simp only [missingFields, hx, if_pos hany, he], h.skip⟩
      · obtain ⟨added, he, h⟩ := ih (items ++ [.ofColumn id x true])
        refine ⟨_, ?_, h.add hx hany⟩
        simp only [missingFields, hx, if_neg hany, he]
        rfl

/-! ## The order of a select list -/

/-- Elements with one key keep their order when a list is sorted by keys. -/
theorem filter_mergeSort {α β : Type} [DecidableEq β] {key : α → β} {le : β → β → Bool}
    (trans : ∀ a b c, le a b = true → le b c = true → le a c = true)
    (total : ∀ a b, (le a b || le b a) = true) (l : List α) (k : β) :
    (l.mergeSort fun a b => le (key a) (key b)).filter (key · = k) = l.filter (key · = k) := by
  have hsorted : (l.filter (key · = k)).Pairwise fun a b => le (key a) (key b) = true := by
    refine List.pairwise_of_forall_mem_list fun a ha b hb => ?_
    have ha : key a = k := by simpa using (List.mem_filter.1 ha).2
    have hb : key b = k := by simpa using (List.mem_filter.1 hb).2
    simpa [ha, hb] using total k k
  have hsub := (List.sublist_mergeSort (fun a b c => trans (key a) (key b) (key c))
    (fun a b => total (key a) (key b)) hsorted List.filter_sublist).filter (key · = k)
  rw [List.filter_filter, List.filter_congr fun a _ => Bool.and_self _] at hsub
  exact (hsub.eq_of_length ((List.mergeSort_perm l _).filter _).length_eq.symm).symm

theorem SelectItem.perm_fields_expressions (items : List SelectItem) :
    items.Perm ((items.filterMap (·.field?)).map .field ++ items.filter (·.field?.isNone)) := by
  induction items with
  | nil => exact .refl _
  | cons i items ih =>
    cases i with
    | field f => exact ih.cons _
    | expression o k e name => exact (ih.cons _).trans List.perm_middle.symm

theorem filterMap_field?_fields (fs : List SelectedField) :
    (fs.map SelectItem.field).filterMap (·.field?) = fs := by
  rw [List.filterMap_map]
  exact List.filterMap_some

theorem filter_fields_eq_nil (fs : List SelectedField) :
    (fs.map SelectItem.field).filter (·.field?.isNone) = [] := by
  rw [List.filter_map, List.map_eq_nil_iff]
  exact List.filter_eq_nil_iff.2 fun _ _ => nofun

/-! ## Completed select lists -/

/-- The clauses `c'` are `c` with a completed select list: the columns `added` are added, and `fields`
are all columns in their final order. -/
structure ClauseSet.Completes (g : JoinGraph) (emitted : List AliasId) (c c' : ClauseSet)
    (added fields : List SelectedField) : Prop where
  /-- The other clauses stay. -/
  others : c' = { c with select := c'.select }
  /-- The items of the list stay, each as often as it is there. -/
  items : c'.select.Perm (c.select ++ added.map SelectItem.field)
  implicit : ∀ f ∈ added, f.implicit = true
  /-- No column is added twice. -/
  distinct : (added.map fun f => (f.owner, f.column)).Nodup
  /-- No column is added that is selected already. -/
  fresh : ∀ f ∈ added, ∀ f', .field f' ∈ c.select → (f'.owner, f'.column) ≠ (f.owner, f.column)
  /-- What is required is selected. -/
  required : ∀ id column x, Required g c id column →
    (g.node? id).bind (·.component.column? column) = some x →
    ∃ f, .field f ∈ c'.select ∧ f.owner = id ∧ f.column = x.name
  /-- Nothing is added but what is required. -/
  only : ∀ f ∈ added, ∃ column x, Required g c f.owner column ∧
    (g.node? f.owner).bind (·.component.column? column) = some x ∧
    SelectItem.field f = .ofColumn f.owner x true
  /-- Columns come first; the expressions follow as they were. -/
  select : c'.select = fields.map .field ++ c.select.filter (·.field?.isNone)
  /-- Columns are sorted by the positions of their joins, the primary keys first. -/
  sorted : fields.Pairwise fun f f' => emitted.idxOf f.owner < emitted.idxOf f'.owner ∨
    emitted.idxOf f.owner = emitted.idxOf f'.owner ∧
      (g.IsKey (f'.owner, f'.column) → g.IsKey (f.owner, f.column))
  /-- Columns that are equal in both stay in order, those that are added last. -/
  stable : ∀ rank, fields.filter (fieldRank g emitted · = rank) =
    (c.select.filterMap (·.field?) ++ added).filter (fieldRank g emitted · = rank)

/-- Completing a select list adds what is needed and disturbs nothing. -/
theorem completeSelection_completes (g : JoinGraph) (emitted : List AliasId) (c : ClauseSet) :
    ∃ added fields, c.Completes g emitted (completeSelection g emitted c) added fields := by
  obtain ⟨added, he, hadded⟩ := missingFields_lacks (g := g) c.select (requiredFields g c)
  have hfields : (c.select ++ added.map SelectItem.field).filterMap (·.field?) =
      c.select.filterMap (·.field?) ++ added := by
    rw [List.filterMap_append, filterMap_field?_fields]
  have hexprs : (c.select ++ added.map SelectItem.field).filter (·.field?.isNone) =
      c.select.filter (·.field?.isNone) := by
    rw [List.filter_append, filter_fields_eq_nil, List.append_nil]
  have hselect : (completeSelection g emitted c).select =
      ((c.select.filterMap (·.field?) ++ added).mergeSort fun f f' =>
        rankLE (fieldRank g emitted f) (fieldRank g emitted f')).map .field ++
          c.select.filter (·.field?.isNone) := by
    simp only [completeSelection, he, hfields, hexprs]
  refine ⟨added, _, rfl, ?_, fun f hf => ?_, hadded.distinct, hadded.fresh,
    fun id column x hr hx => ?_, fun f hf => ?_, hselect, pairwise_mergeSort_fieldRank emitted _,
    filter_mergeSort rankLE_trans rankLE_total _⟩
  · refine .trans ?_ (SelectItem.perm_fields_expressions _).symm
    rw [hselect, hfields, hexprs]
    exact ((List.mergeSort_perm _ _).map _).append_right _
  · exact implicit_of_mem_missingFields (he ▸ List.mem_map_of_mem hf)
  · have hmem : (id, x.name) ∈ (completeSelection g emitted c).columns :=
      mem_columns_completeSelection (mem_requiredFields_iff.2 hr) hx
    obtain ⟨f, hf, hcolumn⟩ := ClauseSet.mem_columns.1 hmem
    obtain ⟨hf, howner⟩ := ClauseSet.mem_fieldsOf.1 hf
    exact ⟨f, hf, howner, hcolumn⟩
  · obtain ⟨column, x, hr, hx⟩ := hadded.only f hf
    exact ⟨column, x, mem_requiredFields_iff.1 hr, hx⟩

end ObjectQuery
