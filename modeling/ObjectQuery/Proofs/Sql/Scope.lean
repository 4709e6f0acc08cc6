import ObjectQuery.Proofs.Plan.Scope

/-! # Scopes of statements

A statement is in scope when every qualifier in it is the name of a table that the statement reads
from, before the place where it is used, or that a statement around it reads from
(`Sql.Select.Scoped`). Lowering a query that is in scope gives such a statement.

* `Sql.Select.Scoped.mono`: names around a statement do no harm;
* `InScope.scoped`: the statement of a query. -/

namespace ObjectQuery
namespace Sql

variable {visible visible' known known' outer outer' : Set String} {t : Term} {s : Select}

/-- The name that a source is read under. -/
def Source.name : Source → String
  | .table _ name => name
  | .derived _ name _ => name

namespace Select

/-- The names that a statement introduces, in order. -/
def introduced (s : Select) : List String := s.source.name :: s.joins.map (·.name)

/-- The terms that are computed from the joined rows. -/
def rowTerms (s : Select) : List Term := s.items.flatMap (·.terms) ++ s.filter.flatMap (·.terms)

/-- The terms that may refer to the select list. -/
def laterTerms (s : Select) : List Term :=
  s.groupBy.flatten ++ s.having.toList.flatten ++ s.orderBy.flatMap (·.terms)

/-- The names in the select list. -/
def outputs (s : Select) : Set String := {name | ∃ i ∈ s.items, i.name = some name}

end Select

/-- The terms that a join tests. -/
def Join.terms (j : Join) : List Term := j.on.flatMap (·.terms)

/-- The term is in scope, a nested statement apart: its qualifier is visible, or its name is one of
the select list. -/
def Term.InScope (visible known : Set String) : Term → Prop
  | .raw _ | .param _ | .select _ => True
  | .column qualifier _ | .equals qualifier _ _ => qualifier ∈ visible
  | .output name => name ∈ known

/-- Every qualifier in a statement is introduced where it is used, by the statement or by one around
it, whose names are `outer`; no name that is introduced is empty. -/
inductive Select.Scoped : (outer : Set String) → Select → Prop
  | intro {outer : Set String} {s : Select} (named : ∀ name ∈ s.introduced, name ≠ "")
    (rows : ∀ t ∈ s.rowTerms, t.InScope (outer ∪ {x | x ∈ s.introduced}) ∅)
    (later : ∀ t ∈ s.laterTerms, t.InScope (outer ∪ {x | x ∈ s.introduced}) s.outputs)
    (nested : ∀ q, .select q ∈ s.rowTerms ++ s.laterTerms →
      Scoped (outer ∪ {x | x ∈ s.introduced}) q)
    (joins : ∀ pre j post, s.joins = pre ++ j :: post → ∀ t ∈ j.terms,
      t.InScope (outer ∪ {x | x ∈ s.source.name :: (pre ++ [j]).map (·.name)}) ∅)
    (nestedJoins : ∀ pre j post, s.joins = pre ++ j :: post → ∀ q, .select q ∈ j.terms →
      Scoped (outer ∪ {x | x ∈ s.source.name :: (pre ++ [j]).map (·.name)}) q)
    (source : ∀ q name spelled, s.source = .derived q name spelled → Scoped outer q) :
    Scoped outer s

theorem Term.InScope.mono (hv : visible ⊆ visible') (hk : known ⊆ known')
    (h : t.InScope visible known) : t.InScope visible' known' := by
  cases t with
  | raw | param | select => trivial
  | column | equals => exact hv h
  | output => exact hk h

namespace Select.Scoped

theorem mono (h : s.Scoped outer) (ho : outer ⊆ outer') : s.Scoped outer' := by
  induction h generalizing outer' with
  | intro named rows later nested joins nestedJoins source ihn ihj ihs =>
    have hunion {xs : Set String} := Set.union_subset_union_left xs ho
    refine .intro named (fun t ht => (rows t ht).mono hunion le_rfl)
      (fun t ht => (later t ht).mono hunion le_rfl) (fun q hq => ihn q hq hunion) ?_ ?_ ?_
    · exact fun pre j post hs t ht => (joins pre j post hs t ht).mono hunion le_rfl
    · exact fun pre j post hs q hq => ihj pre j post hs q hq hunion
    · exact fun q name spelled hs => ihs q name spelled hs ho

theorem limited (h : s.Scoped outer) (limit offset : Option Nat) :
    Select.Scoped outer { s with limit := limit, offset := offset } := by
  cases h with
  | intro named rows later nested joins nestedJoins source =>
    exact .intro named rows later nested joins nestedJoins source

/-- More conditions that read what the statement introduces. -/
theorem demand (h : s.Scoped outer) (c : Conjunct)
    (hc : ∀ t ∈ c.terms, t.InScope (outer ∪ {x | x ∈ s.introduced}) ∅)
    (hn : ∀ q, .select q ∈ c.terms → q.Scoped (outer ∪ {x | x ∈ s.introduced})) :
    Select.Scoped outer { s with filter := c :: s.filter } := by
  have hrows {t : Term} (ht : t ∈ ({ s with filter := c :: s.filter } : Select).rowTerms) :
      t ∈ c.terms ∨ t ∈ s.rowTerms := by
    simp only [rowTerms, List.mem_append, List.flatMap_cons] at ht ⊢
    tauto
  cases h with
  | intro named rows later nested joins nestedJoins source =>
    refine .intro named (fun t ht => ?_) later (fun q hq => ?_) joins nestedJoins source
    · exact (hrows ht).elim (hc t) (rows t)
    · rcases List.mem_append.1 hq with hq | hq
      · exact (hrows hq).elim (hn q) fun hq => nested q (List.mem_append_left _ hq)
      · exact nested q (List.mem_append_right _ hq)

/-- A select list in the place of an empty one. -/
theorem reselect (h : s.Scoped outer) (hs : s.items = []) (items : List Item)
    (hi : ∀ t ∈ items.flatMap (·.terms), t.InScope (outer ∪ {x | x ∈ s.introduced}) ∅)
    (hn : ∀ q, .select q ∈ items.flatMap (·.terms) → q.Scoped (outer ∪ {x | x ∈ s.introduced})) :
    Select.Scoped outer { s with items := items } := by
  have hrows {t : Term} (ht : t ∈ ({ s with items := items } : Select).rowTerms) :
      t ∈ items.flatMap (·.terms) ∨ t ∈ s.rowTerms :=
    (List.mem_append.1 ht).imp_right (List.mem_append_right _)
  cases h with
  | intro named rows later nested joins nestedJoins source =>
    refine .intro named (fun t ht => ?_) (fun t ht => ?_) (fun q hq => ?_) joins nestedJoins source
    · exact (hrows ht).elim (hi t) (rows t)
    · refine (later t ht).mono le_rfl ?_
      rintro name ⟨i, hmem, -⟩
      rw [hs] at hmem
      cases hmem
    · rcases List.mem_append.1 hq with hq | hq
      · exact (hrows hq).elim (hn q) fun hq => nested q (List.mem_append_left _ hq)
      · exact nested q (List.mem_append_right _ hq)

end Select.Scoped
end Sql

/-! ## Statements of queries -/

open Sql

variable {names : AliasNames} {visible P : Set AliasId} {listed : AliasId → Nat → Prop}
  {known : Set String} {g : JoinGraph} {c : ClauseSet} {emitted : List AliasId} {e : Expr}
  {x : Piece} {t : Term} {s : Select} {hydrated : Bool}

theorem mem_terms : t ∈ e.terms names ↔ ∃ x ∈ e.pieces, t = x.term names := by
  obtain ⟨ps, aggregate⟩ := e
  show t ∈ Piece.termsAll names ps ↔ ∃ x ∈ ps, t = x.term names
  induction ps with
  | nil => simp [Piece.termsAll]
  | cons p ps ih => simp [Piece.termsAll, ih]

theorem mem_termsEach {es : List Expr} :
    t ∈ (Expr.termsEach names es).flatten ↔ ∃ e ∈ es, t ∈ e.terms names := by
  simp [termsEach_eq]

theorem mem_termsOption {e? : Option Expr} :
    t ∈ (Expr.termsOption names e?).toList.flatten ↔ ∃ e ∈ e?, t ∈ e.terms names := by
  cases e? <;> simp [Expr.termsOption]

/-- A nested statement among the terms of an expression is that of a query inside it. -/
theorem subquery_of_mem_terms (h : .select s ∈ e.terms names) :
    ∃ q, .subquery q ∈ e.pieces ∧ s = q.toSelect names := by
  obtain ⟨x, hx, he⟩ := mem_terms.1 h
  cases x with
  | subquery q =>
    cases he
    exact ⟨q, hx, rfl⟩
  | text | column | output | placeholder | discriminator => cases he

theorem Piece.InScope.term (h : x.InScope visible listed)
    (hk : ∀ o k, listed o k → expressionOutput names o k ∈ known) :
    (x.term names).InScope (names.get '' visible) known := by
  cases x with
  | text | placeholder | subquery => trivial
  | column | discriminator => exact Set.mem_image_of_mem _ h
  | output o k => exact hk o k h

theorem Expr.terms_inScope (h : ∀ x ∈ e.pieces, x.InScope visible listed)
    (hk : ∀ o k, listed o k → expressionOutput names o k ∈ known) :
    ∀ t ∈ e.terms names, t.InScope (names.get '' visible) known := by
  intro t ht
  obtain ⟨x, hx, rfl⟩ := mem_terms.1 ht
  exact (h x hx).term hk

/-! ### Clauses -/

theorem mem_items {items : List SelectItem} :
    t ∈ (SelectItem.items names hydrated items).flatMap (·.terms) ↔
      (∃ f, .field f ∈ items ∧ t = .column (names.get f.owner) f.column) ∨
        ∃ e ∈ items.filterMap (·.expr?), t ∈ e.terms names := by
  induction items with
  | nil => simp [SelectItem.items]
  | cons i items ih =>
    cases i with
    | field f =>
      simp only [SelectItem.items, List.flatMap_cons, List.singleton_append, ih, List.mem_cons,
        SelectItem.field.injEq, or_and_right, exists_or, exists_eq_left, List.filterMap_cons,
        SelectItem.expr?, or_assoc]
    | expression o k e name =>
      simp only [SelectItem.items, List.flatMap_cons, List.mem_append, ih, List.mem_cons,
        reduceCtorEq, false_or, List.filterMap_cons, SelectItem.expr?, or_and_right, exists_or,
        exists_eq_left]
      exact or_left_comm

theorem mem_orders {ts : List OrderTerm} :
    t ∈ (OrderTerm.orders names ts).flatMap (·.terms) ↔ ∃ u ∈ ts, t ∈ u.expr.terms names := by
  induction ts with
  | nil => simp [OrderTerm.orders]
  | cons u ts ih =>
    obtain ⟨e, direction, implicit⟩ := u
    simp [OrderTerm.orders, ih]

section
variable {use : TableUse} {js : List Join}

/-- The terms over the rows are columns of the select list, terms of expressions, and the test of
the root. -/
theorem mem_rowTerms (h : t ∈ (c.toSelect names hydrated (use.rootTable names) js
    (use.rootTest names)).rowTerms) :
    (∃ f, .field f ∈ c.select ∧ t = .column (names.get f.owner) f.column) ∨
      (∃ e ∈ c.rowExprs, t ∈ e.terms names) ∨ ∃ d : Discriminator,
        t = .equals (names.get use.id) d.column d.value := by
  obtain ⟨distinct, select, filter, groupBy, having, orderBy, limit, offset⟩ := c
  simp only [Select.rowTerms, ClauseSet.toSelect, List.mem_append, List.flatMap_append] at h
  rcases h with h | h | h
  · rcases mem_items.1 h with h | ⟨e, he, h⟩
    · exact .inl h
    · exact .inr (.inl ⟨e, List.mem_append_left _ he, h⟩)
  · cases filter with
    | none => cases h
    | some e =>
      refine .inr (.inl ⟨e, List.mem_append_right _ (List.mem_singleton_self e), ?_⟩)
      simpa [Expr.termsOption] using h
  · obtain ⟨k, hk, h⟩ := List.mem_flatMap.1 h
    obtain ⟨d, -, rfl⟩ := List.mem_map.1 hk
    exact .inr (.inr ⟨d, List.mem_singleton.1 h⟩)

theorem mem_laterTerms {source : Sql.Source} {tests : List Conjunct} :
    t ∈ (c.toSelect names hydrated source js tests).laterTerms ↔
      ∃ e ∈ c.laterExprs, t ∈ e.terms names := by
  obtain ⟨distinct, select, filter, groupBy, having, orderBy, limit, offset⟩ := c
  simp only [Select.laterTerms, ClauseSet.toSelect, ClauseSet.laterExprs, List.mem_append,
    mem_termsEach, mem_termsOption, mem_orders, List.mem_map, Option.mem_toList, Option.mem_def,
    or_and_right, exists_or, exists_exists_and_eq_and, or_assoc]

theorem mem_outputs {source : Sql.Source} {tests : List Conjunct} {o : AliasId} {k : Nat}
    (h : c.Lists o k) :
    expressionOutput names o k ∈ (c.toSelect names hydrated source js tests).outputs := by
  obtain ⟨distinct, select, filter, groupBy, having, orderBy, limit, offset⟩ := c
  obtain ⟨e, name, h⟩ := h
  show ∃ i ∈ SelectItem.items names hydrated select, i.name = some (expressionOutput names o k)
  simp only at h
  induction select with
  | nil => cases h
  | cons i items ih =>
    rcases List.mem_cons.1 h with rfl | h
    · exact ⟨_, List.mem_cons_self, rfl⟩
    · obtain ⟨j, hj, he⟩ := ih h
      cases i with
      | field | expression => exact ⟨j, List.mem_cons_of_mem _ hj, he⟩

end

/-! ### Joins -/

/-- The join of an alias; the root has none. -/
def JoinGraph.sqlJoin? (names : AliasNames) (g : JoinGraph) (id : AliasId) : Option Join :=
  if id = g.root.id then none else (g.node? id).map (·.join names)

theorem sqlJoins_eq : g.sqlJoins names emitted = emitted.filterMap (g.sqlJoin? names) := by
  obtain ⟨root, joins⟩ := g
  rw [JoinGraph.sqlJoins, arrangeJoins, List.filterMap_filter]
  refine List.filterMap_congr fun id _ => ?_
  simp only [JoinGraph.sqlJoin?, JoinGraph.node?, JoinGraph.nodes, bne_iff_ne, ne_eq, ite_not]
  split
  · rfl
  · rename_i hne
    rw [List.find?_cons_of_neg (by simpa using Ne.symm hne), joins_eq, List.find?_map,
      Option.map_map]
    rfl

theorem join_name (n : JoinNode) : (n.join names).name = names.get n.id := by
  cases n
  rfl

theorem mem_joinTerms {n : JoinNode} :
    t ∈ (n.join names).terms ↔ ∃ e ∈ n.conjuncts, t ∈ e.terms names := by
  simp only [Join.terms, join_on, JoinNode.conjuncts, List.flatMap_map, List.mem_flatMap,
    List.mem_map, exists_exists_and_eq_and]

theorem node_of_sqlJoin? {a : AliasId} {j : Join} (h : g.sqlJoin? names a = some j) :
    ∃ n, g.node? a = some n ∧ j = n.join names := by
  rw [JoinGraph.sqlJoin?] at h
  split at h
  · cases h
  · obtain ⟨n, hn, rfl⟩ := Option.map_eq_some_iff.1 h
    exact ⟨n, hn, rfl⟩

/-- An alias of the graph other than the root has a join of its name. -/
theorem exists_sqlJoin (names : AliasNames) {a : AliasId} (ha : a ∈ g.aliases) (hne : a ≠ g.root.id) :
    ∃ j, g.sqlJoin? names a = some j ∧ j.name = names.get a := by
  obtain ⟨n, hn, rfl⟩ := List.mem_map.1 ha
  cases hfind : g.node? n.id with
  | none =>
    have := List.find?_eq_none.1 hfind n hn
    simp at this
  | some m =>
    have hid : m.id = n.id := by simpa using List.find?_some hfind
    exact ⟨m.join names, by simp [JoinGraph.sqlJoin?, hne, hfind], by rw [join_name, hid]⟩

/-- The names of the root and of the joins of some aliases are those of the aliases. -/
theorem mem_joinNames {as : List AliasId} (h : ∀ a ∈ as, a ∈ g.aliases) {a : AliasId} (ha : a ∈ as) :
    names.get a ∈ names.get g.root.id :: (as.filterMap (g.sqlJoin? names)).map (·.name) := by
  by_cases hne : a = g.root.id
  · exact hne ▸ List.mem_cons_self
  · obtain ⟨j, hj, hname⟩ := exists_sqlJoin names (h a ha) hne
    exact List.mem_cons_of_mem _ (List.mem_map.2 ⟨j, List.mem_filterMap.2 ⟨a, ha, hj⟩, hname⟩)

theorem exists_of_filterMap_eq {α β : Type} {f : α → Option β} {as : List α} {pre post : List β}
    {b : β} (h : as.filterMap f = pre ++ b :: post) :
    ∃ as₁ a as₂, as = as₁ ++ a :: as₂ ∧ as₁.filterMap f = pre ∧ f a = some b := by
  obtain ⟨as₁, as₂, rfl, hpre, hrest⟩ := List.filterMap_eq_append_iff.1 h
  obtain ⟨bs, a, as₃, rfl, hnone, ha, -⟩ := List.filterMap_eq_cons_iff.1 hrest
  refine ⟨as₁ ++ bs, a, as₃, by simp, ?_, ha⟩
  rw [List.filterMap_append, hpre, List.filterMap_eq_nil_iff.2 hnone, List.append_nil]

/-- Aliases of the graph, and those around it, have names that are introduced or around. -/
theorem image_joinNames (names : AliasNames) (visible : Set AliasId) {as : List AliasId}
    (has : ∀ a ∈ as, a ∈ g.aliases) :
    names.get '' (visible ∪ {a | a ∈ as}) ⊆ names.get '' visible ∪
      {x | x ∈ names.get g.root.id :: (as.filterMap (g.sqlJoin? names)).map (·.name)} := by
  rw [Set.image_union]
  refine Set.union_subset_union_right _ ?_
  rintro _ ⟨a, ha, rfl⟩
  exact mem_joinNames has ha

/-- A join that is written is that of an alias, and the names before it are those of the aliases
before. -/
theorem exists_of_sqlJoins_eq {pre post : List Join} {j : Join}
    (hdeclared : ∀ a ∈ emitted, a ∈ g.aliases) (h : g.sqlJoins names emitted = pre ++ j :: post) :
    ∃ as₁ a as₂ n, emitted = as₁ ++ a :: as₂ ∧ g.node? a = some n ∧ j = n.join names ∧
      names.get '' (visible ∪ {x | x ∈ as₁ ++ [a]}) ⊆ names.get '' visible ∪
        {x | x ∈ names.get g.root.id :: (pre ++ [j]).map (·.name)} := by
  rw [sqlJoins_eq] at h
  obtain ⟨as₁, a, as₂, rfl, rfl, hj⟩ := exists_of_filterMap_eq h
  obtain ⟨n, hn, rfl⟩ := node_of_sqlJoin? hj
  have hsub : ∀ x ∈ as₁ ++ [a], x ∈ g.aliases := fun x hx => hdeclared x (by
    simp only [List.mem_append, List.mem_cons] at hx ⊢
    tauto)
  have himage := image_joinNames names visible hsub
  rw [List.filterMap_append, List.filterMap_cons_some hj, List.filterMap_nil] at himage
  exact ⟨as₁, a, as₂, n, rfl, hn, rfl, himage⟩

theorem exists_of_mem_introduced {name : String} (hroot : emitted.head? = some g.root.id)
    (h : name ∈ names.get g.root.id :: (emitted.filterMap (g.sqlJoin? names)).map (·.name)) :
    ∃ a ∈ emitted, name = names.get a := by
  rcases List.mem_cons.1 h with rfl | h
  · exact ⟨_, List.mem_of_head? hroot, rfl⟩
  · obtain ⟨j, hj, rfl⟩ := List.mem_map.1 h
    obtain ⟨a, ha, hj⟩ := List.mem_filterMap.1 hj
    obtain ⟨n, hn, rfl⟩ := node_of_sqlJoin? hj
    have hid : n.id = a := by simpa using List.find?_some hn
    exact ⟨a, ha, by rw [join_name, hid]⟩

theorem toSelect_introduced : (c.toSelect names hydrated (g.root.rootTable names)
    (g.sqlJoins names emitted) (g.root.rootTest names)).introduced =
      names.get g.root.id :: (emitted.filterMap (g.sqlJoin? names)).map (·.name) := by
  cases c
  rw [← sqlJoins_eq]
  rfl

theorem toSelect_joins {source : Sql.Source} {js : List Join} {tests : List Conjunct} :
    (c.toSelect names hydrated source js tests).joins = js := by
  cases c
  rfl

theorem toSelect_source {source : Sql.Source} {js : List Join} {tests : List Conjunct} :
    (c.toSelect names hydrated source js tests).source = source := by
  cases c
  rfl

theorem toSelect_filter {source : Sql.Source} {js : List Join} {tests : List Conjunct} :
    (c.toSelect names hydrated source js tests).filter =
      (Expr.termsOption names c.filter).toList.map (fun t => ⟨t, true⟩) ++ tests := by
  cases c
  rfl

theorem toSelect_having {source : Sql.Source} {js : List Join} {tests : List Conjunct} :
    (c.toSelect names hydrated source js tests).having = Expr.termsOption names c.having := by
  cases c
  rfl

theorem Subquery.toSelect_eq (q : Subquery) : q.toSelect names = q.clauses.toSelect names false
    (q.graph.root.rootTable names) (q.graph.sqlJoins names q.emitted)
    (q.graph.root.rootTest names) := by
  cases q
  rfl

theorem InScope.scoped (h : InScope P visible g c emitted) (hnames : ∀ a ∈ P, names.get a ≠ "")
    (hydrated : Bool) : (c.toSelect names hydrated (g.root.rootTable names)
      (g.sqlJoins names emitted) (g.root.rootTest names)).Scoped (names.get '' visible) := by
  induction h generalizing hydrated with
  | @intro visible g c emitted root declared introduced fields owners rows later nested joins
      nestedJoins ihn ihj =>
    have hvisible := image_joinNames names visible declared
    have hnested {e : Expr} (he : e ∈ c.rowExprs ++ c.laterExprs) {s : Select}
        (hs : .select s ∈ e.terms names) : s.Scoped (names.get '' visible ∪
          {x | x ∈ names.get g.root.id :: (emitted.filterMap (g.sqlJoin? names)).map (·.name)}) := by
      obtain ⟨q, hq, rfl⟩ := subquery_of_mem_terms hs
      rw [q.toSelect_eq]
      exact (ihn e he q hq false).mono hvisible
    refine .intro ?named ?rows ?later ?nested ?joins ?nestedJoins ?source
    case named =>
      rw [toSelect_introduced]
      intro name hname
      obtain ⟨a, ha, rfl⟩ := exists_of_mem_introduced root hname
      exact hnames a (introduced a ha)
    case rows =>
      rw [toSelect_introduced]
      intro t ht
      rcases mem_rowTerms ht with ⟨f, hf, rfl⟩ | ⟨e, he, ht⟩ | ⟨d, rfl⟩
      · exact hvisible (Set.mem_image_of_mem _ (fields f hf))
      · exact (Expr.terms_inScope (rows e he) (fun _ _ h => h.elim) t ht).mono hvisible le_rfl
      · exact .inr List.mem_cons_self
    case later =>
      rw [toSelect_introduced]
      intro t ht
      obtain ⟨e, he, ht⟩ := mem_laterTerms.1 ht
      exact (Expr.terms_inScope (later e he) (fun _ _ => mem_outputs) t ht).mono hvisible le_rfl
    case nested =>
      rw [toSelect_introduced]
      intro s hs
      rcases List.mem_append.1 hs with hs | hs
      · rcases mem_rowTerms hs with ⟨f, -, hf⟩ | ⟨e, he, hs⟩ | ⟨d, hd⟩
        · cases hf
        · exact hnested (List.mem_append_left _ he) hs
        · cases hd
      · obtain ⟨e, he, hs⟩ := mem_laterTerms.1 hs
        exact hnested (List.mem_append_right _ he) hs
    case joins =>
      intro pre j post hs t ht
      rw [toSelect_joins] at hs
      rw [toSelect_source]
      obtain ⟨as₁, a, as₂, n, hsplit, hn, rfl, hsub⟩ := exists_of_sqlJoins_eq declared hs
      obtain ⟨e, he, ht⟩ := mem_joinTerms.1 ht
      exact (Expr.terms_inScope (joins as₁ a as₂ n hsplit hn e he) (fun _ _ h => h.elim) t
        ht).mono hsub le_rfl
    case nestedJoins =>
      intro pre j post hs s hmem
      rw [toSelect_joins] at hs
      rw [toSelect_source]
      obtain ⟨as₁, a, as₂, n, hsplit, hn, rfl, hsub⟩ := exists_of_sqlJoins_eq declared hs
      obtain ⟨e, he, hmem⟩ := mem_joinTerms.1 hmem
      obtain ⟨q, hq, rfl⟩ := subquery_of_mem_terms hmem
      rw [q.toSelect_eq]
      exact (ihj as₁ a as₂ n hsplit hn e he q hq false).mono hsub
    case source =>
      intro q name spelled hs
      rw [toSelect_source] at hs
      cases hs

end ObjectQuery
