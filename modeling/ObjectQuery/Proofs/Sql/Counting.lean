import ObjectQuery.Proofs.Sql.Nesting
import ObjectQuery.Sql.Count

/-! # The statement that counts

A plan is counted by the groups, the rows or the keys that a derived table lists, or by the rows
themselves.

* `QueryPlan.countsBy`: the statement by the clauses of the plan;
* `QueryPlan.CountTerm`: what stands in the terms of the derived table. -/

namespace ObjectQuery

open Sql

variable {p : QueryPlan} {names : AliasNames} {x : Term} {q : Select} {name : String}
  {distinct : Bool} {items : List Sql.Item} {P : Select → Prop}

namespace QueryPlan

/-- The statement that is counted has the terms of its select list and, the order apart, those of the
query. -/
theorem mem_terms_countBody (h : x ∈ (p.countBody distinct items).terms) :
    x ∈ items.flatMap (·.terms) ∨
      x ∈ (querySelect p.aliases true p.graph p.emitted { p.clauses with orderBy := [] }).terms := by
  obtain ⟨aliases, shadow, graph, ⟨⟩, emitted, placeholders⟩ := p
  simp only [countBody, toSelect, ClauseSet.toSelect, OrderTerm.orders, Select.terms,
    Select.rowTerms, Select.laterTerms, List.flatMap_nil, List.mem_append, List.not_mem_nil,
    or_false] at h ⊢
  tauto

theorem mem_terms_selectFrom (h : x ∈ (selectFrom distinct items q name).terms) :
    x ∈ items.flatMap (·.terms) := by
  simpa only [Select.terms, Select.rowTerms, Select.laterTerms, selectFrom, List.flatMap_nil,
    List.flatten_nil, Option.toList_none, List.append_nil] using h

theorem everywhere_selectFrom (hn : ∀ x ∈ items.flatMap (·.terms), x.Bare) :
    (selectFrom distinct items q name).Everywhere P ↔
      P (selectFrom distinct items q name) ∧ q.Everywhere P :=
  Select.everywhere_of_source rfl fun r hr => (hn _ (mem_terms_selectFrom hr)).2 r rfl

theorem levels_countBody :
    (p.countBody distinct items).levels = [p.countBody distinct items] := by
  have hsource : (p.countBody distinct items).source = p.graph.root.rootTable p.aliases :=
    toSelect_source
  rw [Select.levels_eq, hsource]
  rfl

/-! ## Cases -/

/-- The select list of a count. -/
abbrev countItems (countAlias : String) : List Sql.Item :=
  [⟨[.raw "COUNT(*)".toList], some countAlias⟩]

/-- The items for the key of the root. -/
abbrev rootKeyItems (p : QueryPlan) : List Sql.Item :=
  keyItems (p.aliases.get p.graph.root.id) p.rootKeys

/-- The items for the select expressions that `HAVING` refers to. -/
abbrev havingItems (p : QueryPlan) : List Sql.Item :=
  SelectItem.items p.aliases true p.clauses.havingOutputs

/-- The items for the columns that `HAVING` reads. -/
abbrev havingColumnItems (p : QueryPlan) : List Sql.Item :=
  p.havingColumns.map fun r => ⟨[.column (p.aliases.get r.1) r.2], none⟩

/-- The groups of a plan. -/
abbrev groupStatement (p : QueryPlan) : Select :=
  p.countBody false (groupItems p.aliases p.clauses.groupBy ++ p.havingItems)

/-- The rows of a plan, with what `HAVING` reads. -/
abbrev rowStatement (p : QueryPlan) : Select :=
  p.countBody false (p.rootKeyItems ++ p.havingItems ++ p.havingColumnItems)

/-- The statement that counts, by the clauses of the plan. -/
inductive CountsBy (p : QueryPlan) (countAlias : String) : Select → Prop
  | groups (hgroup : p.clauses.groupBy ≠ []) :
    CountsBy p countAlias (selectFrom false (countItems countAlias) p.groupStatement countTable)
  | having (hgroup : p.clauses.groupBy = []) (hhaving : p.clauses.having.isSome = true) :
    CountsBy p countAlias (selectFrom false (countItems countAlias)
      (selectFrom true (keyItems countTable p.rootKeys) p.rowStatement countTable) countWrapTable)
  | keys (hgroup : p.clauses.groupBy = []) (hhaving : p.clauses.having = none) :
    CountsBy p countAlias
      (selectFrom false (countItems countAlias) (p.countBody true p.rootKeyItems) countTable)
  | rows (hgroup : p.clauses.groupBy = []) (hhaving : p.clauses.having = none) :
    CountsBy p countAlias (p.countBody false (countItems countAlias))

theorem countsBy (p : QueryPlan) (countAlias : String) :
    p.CountsBy countAlias (p.countStatement countAlias) := by
  simp only [countStatement]
  split
  · rename_i hgroup
    exact .groups (by simpa using hgroup)
  · rename_i hgroup
    have hgroup : p.clauses.groupBy = [] := by simpa using hgroup
    split
    · rename_i hhaving
      exact .having hgroup hhaving
    · rename_i hhaving
      have hhaving : p.clauses.having = none := by simpa using hhaving
      split
      · exact .keys hgroup hhaving
      · exact .rows hgroup hhaving

/-! ## Terms -/

/-- The term is bare, or it is written for an expression of the query. -/
abbrev CountTerm (p : QueryPlan) (x : Term) : Prop :=
  x.WrittenFor p.aliases (queryExprs p.graph { p.clauses with orderBy := [] })

theorem bare_countItems {countAlias : String} :
    ∀ x ∈ (countItems countAlias).flatMap (·.terms), x.Bare := by
  intro x hx
  cases List.mem_singleton.1 hx
  exact Term.bare_raw

theorem bare_keyItems {qualifier : String} {keys : List String} :
    ∀ x ∈ (keyItems qualifier keys).flatMap (·.terms), x.Bare := by
  intro x hx
  obtain ⟨key, -, rfl⟩ := mem_keyItems hx
  exact Term.bare_column

theorem countTerm_countBody (hitems : ∀ x ∈ items.flatMap (·.terms), p.CountTerm x)
    (hx : x ∈ (p.countBody distinct items).terms) : p.CountTerm x :=
  (mem_terms_countBody hx).elim (hitems x) writtenFor_querySelect

theorem mem_groupItems {es : List Expr} :
    x ∈ (groupItems names es).flatMap (·.terms) ↔ ∃ e ∈ es, x ∈ e.terms names := by
  rw [groupItems, List.flatMap_map, List.mem_flatMap]
  constructor
  · rintro ⟨g, hg, hx⟩
    exact ⟨g.1, List.mem_of_getElem? (List.mem_zipIdx_iff_getElem?.1 hg), hx⟩
  · rintro ⟨e, he, hx⟩
    obtain ⟨n, hn⟩ := List.getElem?_of_mem he
    exact ⟨(e, n), List.mem_zipIdx_iff_getElem?.2 hn, hx⟩

theorem countTerm_groupItems
    (h : x ∈ (groupItems p.aliases p.clauses.groupBy).flatMap (·.terms)) : p.CountTerm x := by
  obtain ⟨e, he, hx⟩ := mem_groupItems.1 h
  have hlater : e ∈ ({ p.clauses with orderBy := [] } : ClauseSet).laterExprs :=
    List.mem_append_left _ (List.mem_append_left _ he)
  exact .inr ⟨e, List.mem_append_left _ (List.mem_append_right _ hlater), hx⟩

theorem countTerm_havingItems (h : x ∈ p.havingItems.flatMap (·.terms)) : p.CountTerm x := by
  rcases mem_items.1 h with ⟨f, -, rfl⟩ | ⟨e, he, hx⟩
  · exact .inl Term.bare_column
  · obtain ⟨i, hi, hexpr⟩ := List.mem_filterMap.1 he
    obtain ⟨r, -, hr⟩ := List.mem_filterMap.1 hi
    have hselect : e ∈ p.clauses.selectExprs :=
      List.mem_filterMap.2 ⟨i, List.mem_of_find?_eq_some hr, hexpr⟩
    refine .inr ⟨e, List.mem_append_left _ (List.mem_append_left _ ?_), hx⟩
    exact List.mem_append_left _ hselect

theorem countTerm_groupStatement
    (hx : x ∈ (groupItems p.aliases p.clauses.groupBy ++ p.havingItems).flatMap (·.terms)) :
    p.CountTerm x := by
  rw [List.flatMap_append, List.mem_append] at hx
  exact hx.elim countTerm_groupItems countTerm_havingItems

theorem countTerm_rowStatement
    (hx : x ∈ (p.rootKeyItems ++ p.havingItems ++ p.havingColumnItems).flatMap (·.terms)) :
    p.CountTerm x := by
  simp only [List.flatMap_append, List.mem_append, List.flatMap_map] at hx
  rcases hx with (hx | hx) | hx
  · exact .inl (bare_keyItems x hx)
  · exact countTerm_havingItems hx
  · obtain ⟨r, -, hx⟩ := List.mem_flatMap.1 hx
    cases List.mem_singleton.1 hx
    exact .inl Term.bare_column

end QueryPlan
end ObjectQuery
