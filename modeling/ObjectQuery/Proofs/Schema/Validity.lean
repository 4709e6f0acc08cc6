import ObjectQuery.Proofs.Plan.Provenance
import ObjectQuery.Proofs.Success
import ObjectQuery.Schema.Catalog

/-! # What a catalog says of its components

* `Catalog.validateComponent_of_mem`: every component of a catalog passed the check;
* `Catalog.nodup_keyNames`: the columns of a key have different names;
* `Catalog.leads_of_mem`: what the relations of a component lead to;
* `Definition.Writes`, `Catalog.column?_of_writes`: what relations and discriminators call columns
  leads to a column, although it need not be the name of one. -/

namespace ObjectQuery

variable {catalog : Catalog} {config : Config} {c t : Component} {r : Relation}
  {names seen : List String} {name column : String}

/-- The component has a column with the given physical name. -/
def Component.Physical (c : Component) (name : String) : Prop := ∃ x ∈ c.columns, x.name = name

instance (c : Component) (name : String) : Decidable (c.Physical name) :=
  List.decidableBEx (fun x : Column => x.name = name) c.columns

/-- What a definition calls the columns of a component outside the list of its columns. -/
inductive Definition.Writes (d : Definition) : Component → String → Prop
  /-- A column that tells the rows of the component apart. -/
  | test {c : Component} {test : Discriminator} (hc : c ∈ d.components)
    (ht : c.inheritance = some test) : Writes d c test.column
  /-- A column that leads to the target of a relation. -/
  | localColumn {c : Component} {r : Relation} (hc : c ∈ d.components) (hr : r ∈ c.relations)
    (hk : r.kind ≠ .manyToMany) : Writes d c r.localColumn
  /-- A column of the target of a relation. -/
  | foreignColumn {c t : Component} {r : Relation} (hc : c ∈ d.components) (hr : r ∈ c.relations)
    (hk : r.kind ≠ .manyToMany) (ht : d.component? r.target = some t) : Writes d t r.foreignColumn
  /-- A column of the bridge of a relation. -/
  | bridgeColumn {c t : Component} {r : Relation} {bridge column : String} (hc : c ∈ d.components)
    (hr : r ∈ c.relations) (hk : r.kind = .manyToMany) (hb : r.bridge = some bridge)
    (ht : d.component? bridge = some t) (hcol : column ∈ [r.localColumn, r.foreignColumn]) :
    Writes d t column

/-- What a relation that passes the check leads to: its columns are found on both sides or, with a
bridge, in the bridge. -/
inductive Definition.Leads (d : Definition) (c : Component) (r : Relation) : Prop
  | direct {t : Component} (hk : r.kind ≠ .manyToMany) (ht : d.component? r.target = some t)
    (hlocal : (c.column? r.localColumn).isSome = true)
    (hforeign : (t.column? r.foreignColumn).isSome = true) : Leads d c r
  | bridged {t bridge : Component} {name : String} (hk : r.kind = .manyToMany)
    (ht : d.component? r.target = some t) (hname : r.bridge = some name)
    (hbridge : d.component? name = some bridge)
    (hlocal : (bridge.column? r.localColumn).isSome = true)
    (hforeign : (bridge.column? r.foreignColumn).isSome = true) : Leads d c r

theorem forM_eq_ok {ε α : Type} {f : α → Except ε Unit} {as : List α} :
    as.forM f = .ok () ↔ ∀ a ∈ as, f a = .ok () := by
  induction as with
  | nil => exact iff_of_true rfl nofun
  | cons a as ih =>
    rw [List.forM, Except.bind_eq_ok, List.forall_mem_cons, ← ih]
    exact ⟨fun ⟨(), ha, has⟩ => ⟨ha, has⟩, fun ⟨ha, has⟩ => ⟨(), ha, has⟩⟩

theorem firstRepeated_eq_none :
    firstRepeated seen names = none ↔ names.Nodup ∧ ∀ name ∈ names, name ∉ seen := by
  induction names generalizing seen with
  | nil => simp [firstRepeated]
  | cons name names ih =>
    rw [firstRepeated, List.nodup_cons, List.forall_mem_cons]
    by_cases hname : name ∈ seen
    · simp [hname]
    · simp only [List.contains_iff_mem, hname, if_false, ih, List.mem_cons, not_or,
        not_false_eq_true, true_and]
      constructor
      · rintro ⟨hnodup, hseen⟩
        exact ⟨⟨fun hmem => (hseen name hmem).1 rfl, hnodup⟩, fun x hx => (hseen x hx).2⟩
      · rintro ⟨⟨hname, hnodup⟩, hseen⟩
        exact ⟨hnodup, fun x hx => ⟨fun he => hname (he ▸ hx), hseen x hx⟩⟩

theorem Definition.requireColumn_eq_ok :
    requireColumn t c r column = .ok () ↔ (c.column? column).isSome = true := by
  rw [requireColumn]
  split
  · exact iff_of_true rfl ‹_›
  · exact iff_of_false nofun ‹_›

theorem Definition.leads_of_validateRelation {d : Definition}
    (h : d.validateRelation c r = .ok ()) : d.Leads c r := by
  rw [validateRelation] at h
  split at h
  · cases h
  · rename_i t ht
    cases hk : r.kind with
    | oneToOne | oneToMany =>
      rw [hk] at h
      obtain ⟨⟨⟩, hlocal, hforeign⟩ := Except.bind_eq_ok.1 h
      exact .direct (by simp [hk]) ht (requireColumn_eq_ok.1 hlocal) (requireColumn_eq_ok.1 hforeign)
    | manyToMany =>
      rw [hk] at h
      dsimp only at h
      split at h
      · cases h
      · rename_i name hname
        split at h
        · cases h
        · rename_i bridge hbridge
          obtain ⟨⟨⟩, hlocal, hforeign⟩ := Except.bind_eq_ok.1 h
          exact .bridged hk ht hname hbridge (requireColumn_eq_ok.1 hlocal)
            (requireColumn_eq_ok.1 hforeign)

namespace Catalog

theorem describe_eq_ok : catalog.describe name = .ok c ↔ catalog.component? name = some c := by
  rw [describe]
  split
  · rename_i h
    rw [h, Except.ok.injEq, Option.some.injEq]
  · rename_i h
    rw [h]
    exact iff_of_false nofun nofun

theorem mem_of_component? (h : catalog.component? name = some c) : c ∈ catalog.components :=
  List.mem_of_find?_eq_some h

theorem mem_of_describes (h : (⟨catalog.describe, config⟩ : Surroundings).Describes c) :
    c ∈ catalog.components := by
  obtain ⟨name, h⟩ := h
  exact mem_of_component? (describe_eq_ok.1 h)

/-- The components have different names. -/
theorem nodup_components : (catalog.components.map (·.name)).Nodup := by
  have hvalid := catalog.valid
  rw [Definition.validate] at hvalid
  split at hvalid
  · cases hvalid
  · rename_i hnone
    exact (firstRepeated_eq_none.1 hnone).1

theorem component?_of_mem (hc : c ∈ catalog.components) : catalog.component? c.name = some c := by
  have hsome : (catalog.component? c.name).isSome = true :=
    List.find?_isSome.2 ⟨c, hc, beq_self_eq_true c.name⟩
  obtain ⟨t, ht⟩ := Option.isSome_iff_exists.1 hsome
  have hname : t.name = c.name := by simpa using List.find?_some ht
  rw [ht, List.inj_on_of_nodup_map nodup_components (mem_of_component? ht) hc hname]

theorem validateComponent_of_mem (hc : c ∈ catalog.components) :
    catalog.toDefinition.validateComponent c = .ok () := by
  have hvalid := catalog.valid
  rw [Definition.validate] at hvalid
  split at hvalid
  · cases hvalid
  · exact forM_eq_ok.1 hvalid c hc

/-- The columns of a component have different names. -/
theorem nodup_columns (hc : c ∈ catalog.components) : (c.columns.map (·.name)).Nodup := by
  obtain ⟨⟨⟩, hcolumns, -⟩ := Except.bind_eq_ok.1 (validateComponent_of_mem hc)
  rw [Definition.validateColumns] at hcolumns
  split at hcolumns
  · cases hcolumns
  · split at hcolumns
    · cases hcolumns
    · rename_i hnone _
      exact (firstRepeated_eq_none.1 hnone).1
    · rename_i hnone _
      exact (firstRepeated_eq_none.1 hnone).1

/-- A component has a primary key. -/
theorem primaryKeys_ne_nil (hc : c ∈ catalog.components) : c.primaryKeys ≠ [] := by
  obtain ⟨⟨⟩, hcolumns, -⟩ := Except.bind_eq_ok.1 (validateComponent_of_mem hc)
  rw [Definition.validateColumns, Component.identifier?] at hcolumns
  intro hnil
  rw [hnil] at hcolumns
  cases hcolumns

theorem columns_ne_nil (hc : c ∈ catalog.components) : c.columns ≠ [] := by
  intro hnil
  refine primaryKeys_ne_nil hc ?_
  rw [Component.primaryKeys, hnil, List.filter_nil]

theorem nodup_keyNames (hc : c ∈ catalog.components) : c.keyNames.Nodup :=
  (nodup_columns hc).sublist (List.filter_sublist.map _)

/-! ## Columns under other names -/

/-- A discriminator leads to a column. -/
theorem column?_test {test : Discriminator} (hc : c ∈ catalog.components)
    (ht : c.inheritance = some test) : (c.column? test.column).isSome = true := by
  obtain ⟨⟨⟩, hcolumns, -⟩ := Except.bind_eq_ok.1 (validateComponent_of_mem hc)
  rw [Definition.validateColumns, ht] at hcolumns
  split at hcolumns
  · cases hcolumns
  · split at hcolumns
    · cases hcolumns
    · rename_i he
      cases he
      split at hcolumns
      · cases hcolumns
      · rename_i hsome
        exact Option.isSome_iff_ne_none.2 fun hnone => hsome (hnone ▸ rfl)
    · rename_i he
      cases he

theorem leads_of_mem (hc : c ∈ catalog.components) (hr : r ∈ c.relations) : catalog.Leads c r := by
  obtain ⟨⟨⟩, -, hrelations⟩ := Except.bind_eq_ok.1 (validateComponent_of_mem hc)
  exact Definition.leads_of_validateRelation (forM_eq_ok.1 hrelations r hr)

/-- Whatever a catalog calls the columns of a component leads to one of them. -/
theorem column?_of_writes (h : catalog.Writes c column) : (c.column? column).isSome = true := by
  cases h with
  | test hc ht => exact column?_test hc ht
  | localColumn hc hr hk =>
    cases leads_of_mem hc hr with
    | direct _ _ hlocal => exact hlocal
    | bridged hk' => exact absurd hk' hk
  | foreignColumn hc hr hk ht =>
    cases leads_of_mem hc hr with
    | direct _ ht' _ hforeign =>
      cases ht.symm.trans ht'
      exact hforeign
    | bridged hk' => exact absurd hk' hk
  | bridgeColumn hc hr hk hb ht hcol =>
    cases leads_of_mem hc hr with
    | direct hk' => exact absurd hk hk'
    | bridged _ _ hb' ht' hlocal hforeign =>
      cases hb.symm.trans hb'
      cases ht.symm.trans ht'
      simp only [List.mem_cons, List.not_mem_nil, or_false] at hcol
      rcases hcol with rfl | rfl
      · exact hlocal
      · exact hforeign

end Catalog
end ObjectQuery
