import ObjectQuery.Proofs.Scope.Statement

/-! # Statements inside statements

A statement may read from another one, and its terms may be statements. What holds of a statement
and of all those inside it (`Sql.Select.Everywhere`) is proved level by level: of the derived tables
that it reads from, and of the statements among the terms of each. The latter are the statements of
subqueries, which read tables only.

* `Sql.Select.everywhere_iff`: a statement and its derived tables;
* `Subquery.everywhere`: the statement of a subquery;
* `QueryPlan.levels_selectStatement`, `QueryPlan.mem_levels_limitedKeys`: the levels of the
  statements of a plan. -/

namespace ObjectQuery
namespace Sql

namespace Select

/-- The terms of a statement. -/
def terms (s : Select) : List Term := s.rowTerms ++ s.laterTerms ++ s.joins.flatMap (·.terms)

/-- The first statement is the second one or stands inside it. -/
inductive Within : Select → Select → Prop
  | self {s : Select} : Within s s
  | source {s t q : Select} {name : String} {spelled : Bool}
    (h : t.source = .derived q name spelled) (hs : Within s q) : Within s t
  | nested {s t q : Select} (h : .select q ∈ t.terms) (hs : Within s q) : Within s t

/-- Something holds of a statement and of all statements inside it. -/
def Everywhere (P : Select → Prop) (t : Select) : Prop := ∀ s, s.Within t → P s

variable {P : Select → Prop} {s t : Select}

theorem mem_levels_self : s ∈ s.levels := s.levels_eq ▸ List.mem_cons_self

theorem Within.trans {u : Select} (h : s.Within t) (h' : t.Within u) : s.Within u := by
  induction h' with
  | self => exact h
  | source hq _ ih => exact .source hq ih
  | nested hq _ ih => exact .nested hq ih

end Select

mutual

theorem Source.within_of_mem_levels {l : Select} : (source : Source) → l ∈ source.levels →
    ∃ q name spelled, source = .derived q name spelled ∧ l.Within q
  | .table .., h => nomatch h
  | .derived q _ _, h => ⟨q, _, _, rfl, Select.within_of_mem_levels q h⟩

theorem Select.within_of_mem_levels {l : Select} : (s : Select) → l ∈ s.levels → l.Within s
  | ⟨distinct, items, source, joins, filter, groupBy, having, orderBy, limit, offset⟩, h => by
    rcases List.mem_cons.1 h with rfl | h
    · exact .self
    · obtain ⟨q, name, spelled, hq, hl⟩ := source.within_of_mem_levels h
      exact .source hq hl

end

namespace Select

variable {P : Select → Prop} {s t : Select}

/-- A statement inside another one is a level of it or stands in the terms of one. -/
theorem Within.levels (h : s.Within t) :
    ∃ l ∈ t.levels, s = l ∨ ∃ q, .select q ∈ l.terms ∧ s.Within q := by
  induction h with
  | self => exact ⟨_, mem_levels_self, .inl rfl⟩
  | @source t q name spelled h _ ih =>
    obtain ⟨l, hl, hs⟩ := ih
    refine ⟨l, ?_, hs⟩
    rw [t.levels_eq, h]
    exact List.mem_cons_of_mem _ hl
  | nested h hs => exact ⟨_, mem_levels_self, .inr ⟨_, h, hs⟩⟩

theorem everywhere_iff : t.Everywhere P ↔
    ∀ l ∈ t.levels, P l ∧ ∀ q, .select q ∈ l.terms → q.Everywhere P := by
  constructor
  · intro h l hl
    have hwithin := within_of_mem_levels t hl
    exact ⟨h l hwithin, fun q hq s hs => h s ((Within.nested hq hs).trans hwithin)⟩
  · intro h s hs
    obtain ⟨l, hl, rfl | ⟨q, hq, hs⟩⟩ := hs.levels
    · exact (h s hl).1
    · exact (h l hl).2 q hq s hs

/-- A statement that reads from tables. -/
theorem everywhere_of_levels (hs : t.levels = [t])
    (hn : ∀ q, .select q ∈ t.terms → q.Everywhere P) : t.Everywhere P ↔ P t := by
  rw [everywhere_iff, hs, List.forall_mem_singleton]
  exact and_iff_left hn

/-- A statement that reads from another one, and whose terms are no statements. -/
theorem everywhere_of_source {q : Select} (hs : t.levels = t :: q.levels)
    (hn : ∀ q, .select q ∉ t.terms) : t.Everywhere P ↔ P t ∧ q.Everywhere P := by
  rw [everywhere_iff, everywhere_iff, hs, List.forall_mem_cons]
  exact and_congr_left fun _ => and_iff_left fun q hq => absurd hq (hn q)

theorem mem_terms_of_items {items : List Item} {x : Term}
    (h : x ∈ ({ s with items := items } : Select).terms) :
    x ∈ items.flatMap (·.terms) ∨ x ∈ s.terms := by
  simp only [terms, rowTerms, laterTerms, List.mem_append] at h ⊢
  tauto

theorem mem_terms_of_filter {test : Conjunct} {limit offset : Option Nat} {x : Term}
    (h : x ∈ ({ s with filter := test :: s.filter, limit := limit, offset := offset } :
      Select).terms) : x ∈ test.terms ∨ x ∈ s.terms := by
  simp only [terms, rowTerms, laterTerms, List.flatMap_cons, List.mem_append] at h ⊢
  tauto

end Select
end Sql

/-! ## Terms of expressions -/

open Sql

variable {names : AliasNames} {g : JoinGraph} {c : ClauseSet} {emitted : List AliasId}
  {hydrated : Bool} {P : Select → Prop} {Q : Subquery → Prop} {x : Term} {s : Select} {e : Expr}
  {es es' : List Expr}

namespace Sql.Term

/-- The term uses no name of a select list and is no statement. -/
def Bare (x : Term) : Prop := (∀ name, x ≠ .output name) ∧ ∀ q, x ≠ .select q

/-- The term is bare, or it stands for a piece of one of the expressions. -/
def WrittenFor (names : AliasNames) (es : List Expr) (x : Term) : Prop :=
  x.Bare ∨ ∃ e ∈ es, x ∈ e.terms names

theorem bare_raw {t : Text} : (raw t).Bare := ⟨nofun, nofun⟩

theorem bare_column {a name : String} : (column a name).Bare := ⟨nofun, nofun⟩

theorem bare_equals {a name : String} {v : Value} : (equals a name v).Bare := ⟨nofun, nofun⟩

theorem WrittenFor.mono (h : x.WrittenFor names es) (hes : ∀ e ∈ es, e ∈ es') :
    x.WrittenFor names es' :=
  h.imp_right (Exists.imp fun e => And.imp_left (hes e))

theorem WrittenFor.select (h : (Term.select s).WrittenFor names es) :
    ∃ e ∈ es, ∃ q, .subquery q ∈ e.pieces ∧ s = q.toSelect names := by
  obtain ⟨-, hne⟩ | ⟨e, he, h⟩ := h
  · exact absurd rfl (hne s)
  · exact ⟨e, he, subquery_of_mem_terms h⟩

theorem WrittenFor.output {name : String} (h : (Term.output name).WrittenFor names es) :
    ∃ e ∈ es, ∃ o k, .output o k ∈ e.pieces ∧ name = expressionOutput names o k := by
  obtain ⟨hne, -⟩ | ⟨e, he, h⟩ := h
  · exact absurd rfl (hne name)
  · obtain ⟨x, hx, h⟩ := mem_terms.1 h
    cases x with
    | output o k =>
      cases h
      exact ⟨e, he, o, k, hx, rfl⟩
    | text | column | placeholder | subquery | discriminator => cases h

end Sql.Term

/-! ## Statements of queries -/

/-- The statement of the clauses of a query over its joins. -/
abbrev querySelect (names : AliasNames) (hydrated : Bool) (g : JoinGraph) (emitted : List AliasId)
    (c : ClauseSet) : Select :=
  c.toSelect names hydrated (g.root.rootTable names) (g.sqlJoins names emitted)
    (g.root.rootTest names)

/-- Besides its expressions, a query writes the columns that it selects and the test of its root. -/
theorem writtenFor_querySelect (h : x ∈ (querySelect names hydrated g emitted c).terms) :
    x.WrittenFor names (queryExprs g c) := by
  rcases List.mem_append.1 h with h | h
  · rcases List.mem_append.1 h with h | h
    · rcases mem_rowTerms h with ⟨f, -, rfl⟩ | ⟨e, he, hx⟩ | ⟨d, rfl⟩
      · exact .inl Term.bare_column
      · exact .inr ⟨e, List.mem_append_left _ (List.mem_append_left _ he), hx⟩
      · exact .inl Term.bare_equals
    · obtain ⟨e, he, hx⟩ := mem_laterTerms.1 h
      exact .inr ⟨e, List.mem_append_left _ (List.mem_append_right _ he), hx⟩
  · rw [toSelect_joins] at h
    obtain ⟨j, hj, hx⟩ := List.mem_flatMap.1 h
    obtain ⟨n, hn, rfl⟩ := mem_sqlJoins hj
    obtain ⟨e, he, hx⟩ := mem_joinTerms.1 hx
    refine .inr ⟨e, List.mem_append_right _ ?_, hx⟩
    exact List.mem_flatMap.2 ⟨n, hn, n.mem_exprs_of_mem_conjuncts he⟩

/-- What holds of the statement of every subquery that is like `Q`, and of those inside that are like
`Q` again, holds everywhere in it. -/
theorem Subquery.everywhere {q : Subquery} (hq : Q q) (hP : ∀ q, Q q → P (q.toSelect names))
    (hQ : ∀ q, Q q → ∀ e ∈ queryExprs q.graph q.clauses, ∀ r, .subquery r ∈ e.pieces → Q r) :
    (q.toSelect names).Everywhere P := by
  intro s hs
  generalize ht : q.toSelect names = t at hs
  -- on how deep the statement stands; the source of a subquery is a table
  induction hs generalizing q with
  | self => exact ht ▸ hP q hq
  | source h =>
    rw [← ht, q.toSelect_eq, toSelect_source] at h
    cases h
  | nested h _ ih =>
    rw [← ht, q.toSelect_eq] at h
    obtain ⟨e, he, r, hr, rfl⟩ := (writtenFor_querySelect h).select
    exact ih (hQ q hq e he r hr) rfl

/-! ## Statements of plans -/

namespace QueryPlan

variable {p : QueryPlan} {d : Dialect} {q : Select} {keys : List String} {name : String}
  {distinct spelled : Bool} {limit offset : Option Nat}

theorem levels_selectStatement : (p.selectStatement d).levels = [p.selectStatement d] := by
  have hfull : (p.toSelect p.aliases p.clauses).source = p.graph.root.rootTable p.aliases :=
    toSelect_source
  have hsource : (p.selectStatement d).source = p.graph.root.rootTable p.aliases := by
    rw [selectStatement]
    split
    · exact hfull
    · exact hfull
  rw [Select.levels_eq, hsource]
  rfl

/-- Besides its expressions, a plan writes the condition on the keys of limited roots. -/
theorem writtenFor_selectStatement (h : x ∈ (p.selectStatement d).terms) :
    x.WrittenFor p.aliases (queryExprs p.graph p.clauses) ∨
      p.usesLimitSubquery d = true ∧ x = .select (p.limitedKeys d) := by
  rw [selectStatement] at h
  split at h
  · rename_i hlimit
    rcases Select.mem_terms_of_filter h with h | h
    · rcases mem_rootAmong h with ⟨text, rfl⟩ | ⟨key, rfl⟩ | rfl
      · exact .inl (.inl Term.bare_raw)
      · exact .inl (.inl Term.bare_column)
      · exact .inr ⟨hlimit, rfl⟩
    · exact .inl (writtenFor_querySelect h)
  · exact .inl (writtenFor_querySelect h)

theorem limitedKeys_mem_terms (h : p.usesLimitSubquery d = true) :
    .select (p.limitedKeys d) ∈ (p.selectStatement d).terms := by
  have hmem : .select (p.limitedKeys d) ∈ (p.rootAmong (p.limitedKeys d)).terms :=
    List.mem_append_right _ (List.mem_cons_of_mem _ List.mem_cons_self)
  rw [selectStatement, if_pos h]
  refine List.mem_append_left _ (List.mem_append_left _ (List.mem_append_right _ ?_))
  exact List.mem_flatMap.2 ⟨_, List.mem_cons_self, hmem⟩

theorem writtenFor_rootSelect (h : x ∈ (p.rootSelect names).terms) :
    x.WrittenFor names (p.keyOutputs ++ queryExprs p.graph p.rootClauses) := by
  rw [rootSelect_eq] at h
  rcases Select.mem_terms_of_items h with h | h
  · rw [List.flatMap_append, List.mem_append, List.flatMap_map, termsEach_eq, List.flatMap_map] at h
    rcases h with h | h
    · obtain ⟨key, -, rfl⟩ := mem_keyItems h
      exact .inl Term.bare_column
    · obtain ⟨e, he, hx⟩ := List.mem_flatMap.1 h
      exact .inr ⟨e, List.mem_append_left _ he, hx⟩
  · exact (writtenFor_querySelect h).mono fun e => List.mem_append_right _

theorem mem_terms_projectKeys (h : x ∈ Select.terms { projectKeys keys distinct q name spelled with
    limit := limit, offset := offset }) : ∃ key ∈ keys, x = .column name key := by
  simp only [Select.terms, Select.rowTerms, Select.laterTerms, projectKeys, List.flatMap_nil,
    List.flatten_nil, Option.toList_none, List.append_nil] at h
  exact mem_keyItems h

/-- The statement projects the key of the root out of another one. -/
inductive ProjectsKeys (p : QueryPlan) : Select → Prop
  | mk (distinct : Bool) (q : Select) (name : String) (spelled : Bool) (limit offset : Option Nat) :
    ProjectsKeys p
      { projectKeys p.rootKeys distinct q name spelled with limit := limit, offset := offset }

theorem ProjectsKeys.bare (hs : p.ProjectsKeys s) (h : x ∈ s.terms) : x.Bare := by
  cases hs
  obtain ⟨key, -, rfl⟩ := mem_terms_projectKeys h
  exact Term.bare_column

/-- The levels of the statement that lists the limited roots project their keys, down to the one that
reads the tables. -/
theorem mem_levels_limitedKeys (h : s ∈ (p.limitedKeys d).levels) : p.ProjectsKeys s ∨
    ∃ limit offset, s = { p.rootSelect (p.shadowAliases.getD p.aliases) with
      limit := limit, offset := offset } := by
  have hroot {limit offset : Option Nat} (h : s ∈ Select.levels
      { p.rootSelect (p.shadowAliases.getD p.aliases) with limit := limit, offset := offset }) :
      ∃ limit offset, s = { p.rootSelect (p.shadowAliases.getD p.aliases) with
        limit := limit, offset := offset } :=
    ⟨limit, offset, List.mem_singleton.1 h⟩
  have hproject {distinct spelled : Bool} {q : Select} {name : String} {limit offset : Option Nat}
      (h : s ∈ Select.levels { projectKeys p.rootKeys distinct q name spelled with
        limit := limit, offset := offset }) : p.ProjectsKeys s ∨ s ∈ q.levels := by
    rw [Select.levels_eq] at h
    rcases List.mem_cons.1 h with rfl | h
    · exact .inl (.mk ..)
    · exact .inr h
  simp only [limitedKeys] at h
  split at h
  · split at h
    · exact (hproject h).elim .inl fun h => (hproject h).imp_right hroot
    · exact (hproject h).imp_right hroot
  · split at h
    · exact (hproject h).imp_right hroot
    · split at h
      · exact (hproject h).imp_right hroot
      · exact .inr (hroot h)

end QueryPlan
end ObjectQuery
