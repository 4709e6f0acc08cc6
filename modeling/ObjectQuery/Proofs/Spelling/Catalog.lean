import ObjectQuery.Proofs.Columns.Derived
import ObjectQuery.Proofs.Schema.Validity
import ObjectQuery.Proofs.Spelling.Query

/-! # Columns of plans over a catalog

References in a query become physical columns, whatever they are called in its text. What relations
and discriminators of the catalog call a column is written as it stands, and there a field name, or a
name in other letters, is accepted as well: it leads to a column, but the database need not know it.

* `Catalog.Spells`: the spelling of the plans of a catalog;
* `plan_spells`: the columns of a plan. -/

namespace ObjectQuery

variable {catalog : Catalog} {config : Config} {T : Text} {p : QueryPlan} {c t : Component}
  {r : Relation} {name : String}

/-- The strings that stand for columns in the plans of a catalog: physical names, and what relations
and discriminators call a column. -/
def Catalog.Spells (catalog : Catalog) : Spelling := fun c name =>
  c.Physical name ∨ catalog.Writes c name

namespace Catalog

/-- Every string that stands for a column leads to one. -/
theorem Spells.column? (h : catalog.Spells c name) : (c.column? name).isSome = true := by
  rcases h with ⟨x, hx, rfl⟩ | h
  · rw [Component.column?, Option.isSome_or, Bool.or_eq_true]
    exact .inl (List.find?_isSome.2 ⟨x, hx, by simp⟩)
  · exact column?_of_writes h

theorem spells_of_mem_keyNames (h : name ∈ c.keyNames) : catalog.Spells c name := by
  obtain ⟨x, hx, rfl⟩ := List.mem_map.1 h
  exact .inl ⟨x, (List.mem_filter.1 hx).1, rfl⟩

theorem component?_of_describe {clause : Clause}
    (h : (⟨catalog.describe, config⟩ : Surroundings).describe clause name = .ok c) :
    catalog.component? name = some c :=
  describe_eq_ok.1 (Except.mapError_eq_ok.1 h)

/-- A relation of a component to itself leads to the component. -/
theorem eq_of_isSelfReferential (hc : c ∈ catalog.components)
    (ht : catalog.component? r.target = some t) (h : c.isSelfReferential r = true) : t = c := by
  rw [Component.isSelfReferential, beq_iff_eq] at h
  rw [h, component?_of_mem hc] at ht
  exact (Option.some.inj ht).symm

theorem spells_relation {x : Expansion} (hc : c ∈ catalog.components) (hr : r ∈ c.relations)
    (h : Expansion.ofRelation ⟨catalog.describe, config⟩ c r = .ok x) :
    x.Spelled catalog.Spells c r := by
  have hself {t : Component} (ht : catalog.component? r.target = some t)
      (hs : c.isSelfReferential r = true) :
      t = c ∧ ∀ key ∈ t.keyNames, catalog.Spells c key := by
    have he := eq_of_isSelfReferential hc ht hs
    exact ⟨he, fun key hk => spells_of_mem_keyNames (he ▸ hk)⟩
  cases Expansion.leadsTo h with
  | direct hk ht =>
    have ht := component?_of_describe ht
    have hlocal : catalog.Spells c r.localColumn := .inr (.localColumn hc hr hk)
    refine ⟨hlocal, .inr (.foreignColumn hc hr hk ht), fun hs => ?_⟩
    obtain ⟨rfl, hkeys⟩ := hself ht hs
    exact ⟨.inr (.foreignColumn hc hr hk ht), hlocal, hkeys⟩
  | bridged hk ht hb hbridge hsource htarget =>
    have hcolumn {column : String} (hcol : column ∈ [r.localColumn, r.foreignColumn]) :
        catalog.Spells _ column :=
      .inr (.bridgeColumn hc hr hk hb (component?_of_describe hbridge) hcol)
    exact ⟨spells_of_mem_keyNames (requireKey_eq_ok hsource),
      spells_of_mem_keyNames (requireKey_eq_ok htarget), hcolumn (by simp), hcolumn (by simp),
      fun hs => (hself (component?_of_describe ht) hs).2⟩

/-- The components of a catalog are spelled as it writes them. -/
theorem spells : (⟨catalog.describe, config⟩ : Surroundings).Spells catalog.Spells where
  column _ _ x hx := .inl ⟨x, hx, rfl⟩
  test _ hc _ ht := .inr (.test (mem_of_describes hc) ht)
  relation _ hc _ hr _ hx := spells_relation (mem_of_describes hc) hr hx

end Catalog

namespace Sample

/-- Phones whose owner is called so, in a column of another name. -/
def ownedPhone : Component where
  name := "Phone"
  table := "phones"
  columns := [⟨"id", none, "integer", true⟩, ⟨"user_id", some "owner", "integer", false⟩,
    ⟨"number", none, "string", false⟩]
  relations := []
  inheritance := none
  orderBy := none

/-- Users and their phones, found under the name of the field. -/
def owners : Catalog where
  name := none
  components := [
    { user with
      relations := [⟨"phones", .oneToMany, "Phone", "id", "owner", none, none, none, false,
        false⟩] },
    ownedPhone]
  valid := by decide +kernel

/-- The names of users by a number of theirs. -/
def byNumber : Text :=
  "SELECT u.name FROM User u LEFT JOIN u.phones p WHERE p.number = '1'".toList

end Sample

/-- Every column of a plan over a catalog, at every level of nesting, belongs to a visible alias and
leads to a column of its component. It is a physical name, or what a relation or a discriminator of
the catalog calls a column; when these are physical names, all columns of the plan are. -/
theorem plan_spells (h : plan ⟨catalog.describe, config⟩ T = .ok p) :
    ∃ known, SpelledQuery known (fun c name => (c.column? name).isSome = true ∧
        catalog.Spells c name) ∅ p.graph p.clauses ∧
      ((∀ c name, catalog.Writes c name → c.Physical name) →
        SpelledQuery known Component.Physical ∅ p.graph p.clauses) := by
  obtain ⟨b, c, hp⟩ := plan_placed Catalog.spells h
  refine ⟨b.component?, hp.spelled.imp fun c name hname => ⟨hname.column?, hname⟩, fun hwrites => ?_⟩
  exact hp.spelled.imp fun c name hname => hname.elim id (hwrites c name)

/-- Users and phones are joined by columns that go by their physical names. -/
theorem plan_spells_named : ∃ p, plan ⟨Sample.directory.describe, {}⟩ Sample.named = .ok p ∧
    ∃ known, SpelledQuery known Component.Physical ∅ p.graph p.clauses := by
  obtain ⟨p, hp⟩ := Except.exists_eq_ok
    (x := plan ⟨Sample.directory.describe, {}⟩ Sample.named) (by decide +kernel)
  obtain ⟨known, -, hphysical⟩ := plan_spells hp
  refine ⟨p, hp, known, hphysical fun c name hw => ?_⟩
  have hcomponents {c : Component} (hc : c ∈ Sample.directory.components) :
      c = Sample.user ∨ c = Sample.phone := by
    simpa [Sample.directory] using hc
  have htarget : Sample.directory.component? "Phone" = some Sample.phone := by decide +kernel
  cases hw with
  | test hc ht =>
    rcases hcomponents hc with rfl | rfl
    · cases ht
    · cases ht
      decide
  | localColumn hc hr =>
    rcases hcomponents hc with rfl | rfl
    · rw [List.mem_singleton.1 hr]
      decide
    · cases hr
  | foreignColumn hc hr _ ht =>
    rcases hcomponents hc with rfl | rfl
    · rw [List.mem_singleton.1 hr] at ht ⊢
      cases htarget.symm.trans ht
      decide
    · cases hr
  | bridgeColumn hc hr hk =>
    rcases hcomponents hc with rfl | rfl
    · rw [List.mem_singleton.1 hr] at hk
      cases hk
    · cases hr

/-- Phones are joined by the name of a field. -/
theorem spells_field : ∃ p, plan ⟨Sample.owners.describe, {}⟩ Sample.byNumber = .ok p ∧
    ∀ known, ¬SpelledQuery known Component.Physical ∅ p.graph p.clauses := by
  obtain ⟨p, hp, ⟨n, hn, hid, hc⟩, m, hm, e, he, x, hx, hcolumn⟩ : ∃ p,
      plan ⟨Sample.owners.describe, {}⟩ Sample.byNumber = .ok p ∧
        (∃ n ∈ p.graph.nodes, n.id = 1 ∧ ¬n.component.Physical "owner") ∧
        ∃ n ∈ p.graph.nodes, ∃ e ∈ n.exprs, ∃ x ∈ e.pieces,
          x.column? = some (1, "owner") := by decide +kernel
  refine ⟨p, hp, fun known h => ?_⟩
  obtain ⟨components, -, columns, -, -⟩ := h
  have he : e ∈ queryExprs p.graph p.clauses :=
    List.mem_append_right _ (List.mem_flatMap.2 ⟨m, hm, he⟩)
  obtain ⟨-, component, hknown, hphysical⟩ := columns e he x hx 1 "owner" hcolumn
  rw [← hid, components n hn] at hknown
  cases hknown
  exact hc hphysical

end ObjectQuery
