import ObjectQuery.Proofs.Columns.Counted
import ObjectQuery.Proofs.Sql.Counting

/-! # Names of the select list are used where they are declared

The name of a select expression may stand in `GROUP BY`, `HAVING` and `ORDER BY` of a statement whose
select list declares it. The statement of a plan and the queries inside it keep to that, and so does
the statement that lists the limited roots, in which no such name is left. The statement that counts
groups declares what `HAVING` refers to, but not what `GROUP BY` does.

* `QueryFormed.declares`: the statement of a query;
* `plan_declares`: the statements of a plan. -/

namespace ObjectQuery

open Sql

variable {env : Surroundings} {T : Text} {p : QueryPlan} {c : ClauseSet} {g : JoinGraph}
  {names : AliasNames} {emitted : List AliasId} {hydrated : Bool} {Q : Subquery → Prop} {e : Expr}
  {x : Piece} {N : Nat} {d : Dialect} {P : Select → Prop} {s : Select}

namespace Sql.Select

/-- The statement uses no name of a select list that its own select list does not declare. -/
def Declares (s : Select) : Prop := ∀ name, .output name ∈ s.terms → name ∈ s.outputs

/-- The statement uses no name of a select list. -/
def NamesNothing (s : Select) : Prop := ∀ name, .output name ∉ s.terms

theorem NamesNothing.declares (h : s.NamesNothing) : s.Declares :=
  fun name hx => absurd hx (h name)

end Sql.Select

/-! ## Queries -/

namespace QueryFormed

variable (h : QueryFormed Q g c)
include h

theorem selectExprs {o : AliasId} {k : Nat} (he : e ∈ c.selectExprs) : .output o k ∉ e.pieces :=
  h.rows e (List.mem_append_left _ (List.mem_append_left _ he)) o k

/-- A name that the statement of a query uses refers to a select expression in a clause that comes
after the select list. -/
theorem output_of_writtenFor {name : String}
    (hx : (Term.output name).WrittenFor names (queryExprs g c)) :
    ∃ e ∈ c.laterExprs, ∃ o k, .output o k ∈ e.pieces ∧ name = expressionOutput names o k := by
  obtain ⟨e, he, o, k, ho, rfl⟩ := hx.output
  refine ⟨e, ?_, o, k, ho, rfl⟩
  rcases List.mem_append.1 he with he | he
  · refine (List.mem_append.1 he).resolve_left fun he => ?_
    exact h.rows e (List.mem_append_left _ he) o k ho
  · exact absurd ho (h.rows e (List.mem_append_right _ he) o k)

theorem declares : (querySelect names hydrated g emitted c).Declares := by
  intro name hx
  obtain ⟨e, he, o, k, ho, rfl⟩ := h.output_of_writtenFor (writtenFor_querySelect hx)
  exact mem_outputs (h.later e he o k ho)

/-- With references replaced, an expression holds what the expressions of the query hold, and no
references. -/
theorem mem_inlined (he : e ∈ c.laterExprs) (hx : x ∈ (e.inlined c).pieces) :
    (∀ o k, x ≠ .output o k) ∧ ∃ y ∈ queryExprs g c, x ∈ y.pieces := by
  rcases (ObjectQuery.mem_inlined (fun y hy _ _ => h.selectExprs hy) (h.later e he)).1 hx with
    ⟨hx, hne⟩ | ⟨y, hy, hx⟩
  · exact ⟨hne, e, List.mem_append_left _ (List.mem_append_right _ he), hx⟩
  · have hy := hy.mem_selectExprs
    refine ⟨?_, y, List.mem_append_left _ (List.mem_append_left _ (List.mem_append_left _ hy)), hx⟩
    rintro o k rfl
    exact h.selectExprs hy hx

end QueryFormed

theorem Subquery.Formed.queryFormed {A : Set AliasId} {q : Subquery} (h : q.Formed A) :
    QueryFormed (·.Formed A) q.graph q.clauses := by
  cases h with
  | intro _ _ owners rows later nested => exact ⟨owners, rows, later, nested⟩

theorem Subquery.Formed.declares {A : Set AliasId} {q : Subquery} (h : q.Formed A) :
    (q.toSelect names).Everywhere Select.Declares := by
  refine q.everywhere h (fun q hq => ?_) fun q hq => hq.queryFormed.nested
  rw [q.toSelect_eq]
  exact hq.queryFormed.declares

/-! ## Plans -/

namespace PlanOver

variable (h : PlanOver env N p)
include h

/-- What is known of the clauses of a plan, with the orderings of the schema. -/
theorem formed : QueryFormed (·.Formed (p.graph.freshIn 0 N)) p.graph p.clauses := by
  obtain ⟨owners, rows, later, nested⟩ := h.clauses.formed fun m hm => by
    have := (h.joins m hm).exprs
    rwa [Set.union_empty] at this
  have hlater (e) (he : e ∈ p.clauses.laterExprs) :
      e ∈ p.asked.laterExprs ∨ e.Over Set.univ (fun _ _ => False) (p.graph.freshIn 0 N) := by
    rcases List.mem_append.1 he with he | he
    · exact .inl (List.mem_append_left _ he)
    · obtain ⟨t, ht, rfl⟩ := List.mem_map.1 he
      refine (h.ordered t ht).imp_left fun ht => ?_
      exact List.mem_append_right _ (List.mem_map_of_mem ht)
  refine ⟨owners, rows, fun e he o k ho => ?_, fun e he q hq => ?_⟩
  · rcases hlater e he with he | he
    · exact later e he o k ho
    · exact (he _ ho).2.elim
  · rcases List.mem_append.1 he with he | he
    · rcases List.mem_append.1 he with he | he
      · exact nested e (List.mem_append_left _ (List.mem_append_left _ he)) q hq
      · rcases hlater e he with he | he
        · exact nested e (List.mem_append_left _ (List.mem_append_right _ he)) q hq
        · exact (he _ hq).2
    · exact nested e (List.mem_append_right _ he) q hq

/-- What is known of the clauses of the statement that lists the keys of the roots: nothing in them
refers to the select list. -/
theorem rootExprs_spec {o : AliasId} {k : Nat}
    (he : e ∈ p.keyOutputs ++ queryExprs p.graph p.rootClauses) : .output o k ∉ e.pieces ∧
      ∀ q, .subquery q ∈ e.pieces → q.Formed (p.graph.freshIn 0 N) := by
  have hinlined (y) (hy : y ∈ p.asked.laterExprs) : .output o k ∉ (y.inlined p.clauses).pieces ∧
      ∀ q, .subquery q ∈ (y.inlined p.clauses).pieces → q.Formed (p.graph.freshIn 0 N) := by
    have hy := QueryPlan.mem_laterExprs_of_asked hy
    refine ⟨fun ho => (h.formed.mem_inlined hy ho).1 o k rfl, fun q hq => ?_⟩
    obtain ⟨-, z, hz, hq⟩ := h.formed.mem_inlined hy hq
    exact h.formed.nested z hz q hq
  have hrow (he : e ∈ p.clauses.rowExprs ++ p.graph.nodes.flatMap (·.exprs)) :
      .output o k ∉ e.pieces ∧ ∀ q, .subquery q ∈ e.pieces → q.Formed (p.graph.freshIn 0 N) := by
    refine ⟨h.formed.rows e he o k, h.formed.nested e ?_⟩
    exact (List.mem_append.1 he).elim
      (fun he => List.mem_append_left _ (List.mem_append_left _ he)) (List.mem_append_right _)
  rcases List.mem_append.1 he with he | he
  · obtain ⟨y, hy, rfl⟩ := QueryPlan.mem_keyOutputs he
    exact hinlined y hy
  · rcases List.mem_append.1 he with he | he
    · rcases List.mem_append.1 he with he | he
      · exact hrow (List.mem_append_left _ (List.mem_append_right _ he))
      · obtain ⟨y, hy, rfl⟩ := QueryPlan.mem_laterExprs_rootClauses he
        exact hinlined y hy
    · exact hrow (List.mem_append_right _ he)

/-- The levels of the statement that lists the limited roots use no names of a select list, and the
statements in their terms are those of subqueries. -/
theorem limitedKeys_level (hs : s ∈ (p.limitedKeys d).levels) :
    s.NamesNothing ∧ ∀ q, .select q ∈ s.terms → q.Everywhere Select.Declares := by
  rcases QueryPlan.mem_levels_limitedKeys hs with hs | ⟨limit, offset, rfl⟩
  · exact ⟨fun name hx => (hs.bare hx).1 name rfl, fun q hx => absurd rfl ((hs.bare hx).2 q)⟩
  · refine ⟨fun name hx => ?_, fun q hx => ?_⟩
    · obtain ⟨e, he, o, k, ho, -⟩ := (QueryPlan.writtenFor_rootSelect hx).output
      exact (h.rootExprs_spec he).1 ho
    · obtain ⟨e, he, r, hr, rfl⟩ := (QueryPlan.writtenFor_rootSelect hx).select
      exact ((h.rootExprs_spec (o := 0) (k := 0) he).2 r hr).declares

theorem limitedKeys_declares (d : Dialect) : (p.limitedKeys d).Everywhere Select.Declares :=
  Select.everywhere_iff.2 fun _ hs =>
    ⟨(h.limitedKeys_level hs).1.declares, (h.limitedKeys_level hs).2⟩

theorem selectStatement_declares (d : Dialect) :
    (p.selectStatement d).Everywhere Select.Declares := by
  have houtputs : (p.selectStatement d).outputs =
      (querySelect p.aliases true p.graph p.emitted p.clauses).outputs := by
    rw [QueryPlan.selectStatement]
    split <;> rfl
  refine (Select.everywhere_of_levels QueryPlan.levels_selectStatement fun q hx => ?_).2 ?_
  · rcases QueryPlan.writtenFor_selectStatement hx with hx | ⟨-, hx⟩
    · obtain ⟨e, he, r, hr, rfl⟩ := hx.select
      exact (h.formed.nested e he r hr).declares
    · cases hx
      exact h.limitedKeys_declares d
  · intro name hx
    rw [houtputs]
    rcases QueryPlan.writtenFor_selectStatement hx with hx | ⟨-, hx⟩
    · obtain ⟨e, he, o, k, ho, rfl⟩ := h.formed.output_of_writtenFor hx
      exact mem_outputs (h.formed.later e he o k ho)
    · cases hx

end PlanOver

/-! ## The statement that counts -/

namespace QueryPlan

/-- A name of the select list that `GROUP BY` uses is one that `HAVING` uses too, or a column that is
grouped by bears it. -/
def GroupsDeclared (p : QueryPlan) : Prop :=
  ∀ e ∈ p.clauses.groupBy, ∀ o k, .output o k ∈ e.pieces →
    (o, k) ∈ p.clauses.havingRefs ∨ (o, toString k) ∈ p.clauses.groupColumns

/-- A statement that selects texts and columns from a derived table declares what it uses when the
derived table does. -/
theorem selectFrom_declares {distinct : Bool} {items : List Sql.Item} {q : Select} {name : String}
    (hn : ∀ x ∈ items.flatMap (·.terms), x.Bare) :
    (selectFrom distinct items q name).Everywhere Select.Declares ↔
      q.Everywhere Select.Declares := by
  rw [everywhere_selectFrom hn]
  exact and_iff_right fun name hx => absurd rfl ((hn _ (mem_terms_selectFrom hx)).1 name)

end QueryPlan

namespace PlanOver

variable (h : PlanOver env N p) {distinct : Bool} {items : List Sql.Item}
  (hitems : ∀ x ∈ items.flatMap (·.terms), p.CountTerm x)
include h

theorem formed_unordered : QueryFormed (·.Formed (p.graph.freshIn 0 N)) p.graph
    { p.clauses with orderBy := [] } := by
  obtain ⟨owners, rows, later, nested⟩ := h.formed
  refine ⟨owners, rows, fun e he => later e ?_, fun e he => nested e ?_⟩
  · exact List.mem_append_left _ (List.append_nil (p.clauses.groupBy ++ _) ▸ he)
  · exact mem_queryExprs_reorder (fun _ ht => absurd ht List.not_mem_nil) he

theorem output_of_countTerm {name : String} (hx : p.CountTerm (.output name)) :
    ∃ e ∈ p.clauses.groupBy ++ p.clauses.having.toList, ∃ o k, .output o k ∈ e.pieces ∧
      name = expressionOutput p.aliases o k := by
  obtain ⟨e, he, hx⟩ := h.formed_unordered.output_of_writtenFor hx
  exact ⟨e, List.append_nil (p.clauses.groupBy ++ _) ▸ he, hx⟩

include hitems

theorem countBody_declares : (p.countBody distinct items).Everywhere Select.Declares ↔
    (p.countBody distinct items).Declares :=
  Select.everywhere_of_levels QueryPlan.levels_countBody fun q hx => by
    obtain ⟨e, he, r, hr, rfl⟩ := (QueryPlan.countTerm_countBody hitems hx).select
    exact (h.formed_unordered.nested e he r hr).declares

omit hitems

/-- The groups bear the names of the select expressions that `HAVING` refers to, and of columns that
are grouped by. -/
theorem mem_outputs_groupStatement {o : AliasId} {k : Nat} (ho : o < N) :
    expressionOutput p.aliases o k ∈ p.groupStatement.outputs ↔
      (o, k) ∈ p.clauses.havingRefs ∨ (o, toString k) ∈ p.clauses.groupColumns := by
  refine Iff.trans (List.mem_map (f := fun i : Sql.Item => i.name)).symm ?_
  show _ ∈ (QueryPlan.groupItems _ _ ++ SelectItem.items _ _ _).map _ ↔ _
  rw [List.map_append, List.mem_append, map_name_groupItems, map_name_havingOutputs h.having_lists,
    List.mem_map, List.mem_map, or_comm]
  refine or_congr ⟨?_, fun hr => ⟨_, hr, rfl⟩⟩ ⟨?_, fun hr => ?_⟩
  · rintro ⟨⟨o', k'⟩, hr, he⟩
    rwa [← h.expressionOutput_inj (h.havingRef_lt hr) ho (Option.some.inj he)]
  · rintro ⟨g, hg, he⟩
    have hmem := List.mem_of_getElem? (List.mem_zipIdx_iff_getElem?.1 hg)
    have hcolumn := (h.groupName_eq_output hmem ho).1 (Option.some.inj he)
    exact List.mem_filterMap.2 ⟨g.1, hmem, hcolumn⟩
  · obtain ⟨e, he, hcolumn⟩ := List.mem_filterMap.1 hr
    obtain ⟨n, hn⟩ := List.getElem?_of_mem he
    exact ⟨(e, n), List.mem_zipIdx_iff_getElem?.2 hn,
      congrArg some ((h.groupName_eq_output he ho).2 hcolumn)⟩

theorem groupStatement_declares :
    p.groupStatement.Everywhere Select.Declares ↔ p.GroupsDeclared := by
  rw [h.countBody_declares fun x => QueryPlan.countTerm_groupStatement]
  constructor
  · intro hdeclares e he o k ho
    have hlater : e ∈ p.clauses.laterExprs :=
      List.mem_append_left _ (List.mem_append_left _ he)
    refine (h.mem_outputs_groupStatement (h.lists_lt (h.formed.later e hlater o k ho))).1 ?_
    -- the name stands in the select list already, where the grouping expression is listed
    refine hdeclares _ (List.mem_append_left _ (List.mem_append_left _ (List.mem_append_left _ ?_)))
    show _ ∈ (QueryPlan.groupItems _ _ ++ SelectItem.items _ _ _).flatMap _
    rw [List.flatMap_append]
    exact List.mem_append_left _ (QueryPlan.mem_groupItems.2 ⟨e, he, mem_terms.2 ⟨_, ho, rfl⟩⟩)
  · intro hgroups name hx
    have hterm := QueryPlan.countTerm_countBody (fun x => QueryPlan.countTerm_groupStatement) hx
    obtain ⟨e, he, o, k, ho, rfl⟩ := h.output_of_countTerm hterm
    have hlater : e ∈ p.clauses.laterExprs := List.mem_append_left _ he
    refine (h.mem_outputs_groupStatement (h.lists_lt (h.formed.later e hlater o k ho))).2 ?_
    rcases List.mem_append.1 he with he | he
    · exact hgroups e he o k ho
    · exact .inl (ClauseSet.mem_havingRefs.2 ⟨e, Option.mem_toList.1 he, ho⟩)

theorem mem_outputs_of_havingRef {before after : List Sql.Item} {o : AliasId} {k : Nat}
    (hr : (o, k) ∈ p.clauses.havingRefs) : expressionOutput p.aliases o k ∈ (p.countBody distinct
      (before ++ p.havingItems ++ after)).outputs := by
  have hname := List.mem_map_of_mem (f := fun r => some (expressionOutput p.aliases r.1 r.2)) hr
  rw [← map_name_havingOutputs h.having_lists] at hname
  obtain ⟨i, hi, he⟩ := List.mem_map.1 hname
  exact ⟨i, List.mem_append_left _ (List.mem_append_right _ hi), he⟩

/-- Without groups, only `HAVING` uses names of the select list. -/
theorem havingRef_of_mem (hgroup : p.clauses.groupBy = [])
    (hitems : ∀ x ∈ items.flatMap (·.terms), p.CountTerm x) {name : String}
    (hx : .output name ∈ (p.countBody distinct items).terms) :
    ∃ o k, (o, k) ∈ p.clauses.havingRefs ∧ name = expressionOutput p.aliases o k := by
  obtain ⟨e, he, o, k, ho, rfl⟩ := h.output_of_countTerm (QueryPlan.countTerm_countBody hitems hx)
  rw [hgroup, List.nil_append] at he
  exact ⟨o, k, ClauseSet.mem_havingRefs.2 ⟨e, Option.mem_toList.1 he, ho⟩, rfl⟩

theorem rowStatement_declares (hgroup : p.clauses.groupBy = []) :
    p.rowStatement.Everywhere Select.Declares := by
  have hitems := fun x => @QueryPlan.countTerm_rowStatement p x
  refine (h.countBody_declares hitems).2 fun name hx => ?_
  obtain ⟨o, k, hr, rfl⟩ := h.havingRef_of_mem hgroup hitems hx
  exact h.mem_outputs_of_havingRef hr

theorem countBody_declares_of_none (hgroup : p.clauses.groupBy = [])
    (hhaving : p.clauses.having = none)
    (hitems : ∀ x ∈ items.flatMap (·.terms), p.CountTerm x) :
    (p.countBody distinct items).Everywhere Select.Declares := by
  refine (h.countBody_declares hitems).2 fun name hx => ?_
  obtain ⟨o, k, hr, -⟩ := h.havingRef_of_mem hgroup hitems hx
  obtain ⟨e, he, -⟩ := ClauseSet.mem_havingRefs.1 hr
  rw [hhaving] at he
  cases he

theorem countStatement_declares (countAlias : String) :
    (p.countStatement countAlias).Everywhere Select.Declares ↔ p.GroupsDeclared := by
  have hnone (hgroup : p.clauses.groupBy = []) : p.GroupsDeclared := fun e he => by
    rw [hgroup] at he
    cases he
  have hform := p.countsBy countAlias
  generalize p.countStatement countAlias = s at hform
  cases hform with
  | groups =>
    rw [QueryPlan.selectFrom_declares QueryPlan.bare_countItems, h.groupStatement_declares]
  | having hgroup =>
    rw [QueryPlan.selectFrom_declares QueryPlan.bare_countItems,
      QueryPlan.selectFrom_declares QueryPlan.bare_keyItems]
    exact iff_of_true (h.rowStatement_declares hgroup) (hnone hgroup)
  | keys hgroup hhaving =>
    rw [QueryPlan.selectFrom_declares QueryPlan.bare_countItems]
    refine iff_of_true (h.countBody_declares_of_none hgroup hhaving fun x hx => ?_) (hnone hgroup)
    exact .inl (QueryPlan.bare_keyItems x hx)
  | rows hgroup hhaving =>
    refine iff_of_true (h.countBody_declares_of_none hgroup hhaving fun x hx => ?_) (hnone hgroup)
    exact .inl (QueryPlan.bare_countItems x hx)

end PlanOver

/-! ## Replaced references -/

/-- In the statement that lists the limited roots, select expressions stand in the place of their
names, and one round of replacements is enough for that. -/
structure QueryPlan.Inlines (p : QueryPlan) (d : Dialect) : Prop where
  levels : ∀ s ∈ (p.limitedKeys d).levels, s.NamesNothing
  groupBy : (p.limitedKeys d).core.groupBy =
    Expr.termsEach (p.shadowAliases.getD p.aliases) (p.clauses.groupBy.map (·.inlined p.clauses))
  having : (p.limitedKeys d).core.having =
    Expr.termsOption (p.shadowAliases.getD p.aliases) (p.clauses.having.map (·.inlined p.clauses))
  orderBy : (p.limitedKeys d).core.orderBy = OrderTerm.orders (p.shadowAliases.getD p.aliases)
    (p.explicitOrder.map fun t => { t with expr := t.expr.inlined p.clauses })
  select : ∀ e ∈ p.clauses.selectExprs, ∀ o k, .output o k ∉ e.pieces
  once : ∀ e ∈ p.clauses.laterExprs, ∀ fuel,
    inlinePieces p.clauses (fuel + 1) e.pieces = (e.inlined p.clauses).pieces

/-- A second round of replacements finds nothing to replace. -/
theorem inlinePieces_succ (hselect : ∀ e ∈ c.selectExprs, ∀ o k, .output o k ∉ e.pieces)
    (ps : List Piece) (fuel : Nat) : inlinePieces c (fuel + 1) ps = inlinePieces c 1 ps := by
  rw [inlinePieces, inlinePieces]
  refine List.flatMap_congr fun x _ => ?_
  cases x with
  | output o k =>
    cases hfind : c.expression? o k with
    | none => simp only [hfind]
    | some i =>
      cases i with
      | field => simp only [hfind]
      | expression _ _ y _ =>
        simp only [hfind]
        exact inlinePieces_eq_self (hselect y (expr_mem_of_expression? hfind)) fuel
  | text | column | placeholder | subquery | discriminator => rfl

theorem PlanOver.inlines (h : PlanOver env N p) (d : Dialect) : p.Inlines d := by
  have hselect : ∀ e ∈ p.clauses.selectExprs, ∀ o k, .output o k ∉ e.pieces :=
    fun e he o k => h.formed.selectExprs he
  obtain ⟨limit, offset, hcore⟩ := p.limitedKeys_core d
  refine ⟨fun s hs => (h.limitedKeys_level hs).1, ?_, ?_, ?_, hselect, fun e he fuel => ?_⟩
  · rw [hcore]
    rfl
  · rw [hcore]
    rfl
  · rw [hcore]
    rfl
  · rw [inlinePieces_succ hselect, pieces_inlined hselect (h.formed.later e he)]

/-! ## Main result -/

namespace Sample

/-- Users by a label, which both `GROUP BY` and `HAVING` call by its name. -/
def labels : Text :=
  "SELECT UPPER(u.name) label FROM User u GROUP BY label HAVING label <> ?".toList

/-- Users by a label, which only `GROUP BY` calls by its name. -/
def groupedLabels : Text := "SELECT UPPER(u.name) label FROM User u GROUP BY label".toList

end Sample

/-- The statement of a plan and those inside it use no name of a select list but where it is
declared; in the statement that lists the limited roots the select expressions stand in the place of
their names. The statement that counts declares the names it uses when those in `GROUP BY` are also
in `HAVING`. -/
theorem plan_declares (h : plan env T = .ok p) :
    (∀ d, (p.selectStatement d).Everywhere Select.Declares ∧ p.Inlines d) ∧
      ∀ countAlias,
        (p.countStatement countAlias).Everywhere Select.Declares ↔ p.GroupsDeclared := by
  obtain ⟨n, hp⟩ := plan_over h
  exact ⟨fun d => ⟨hp.selectStatement_declares d, hp.inlines d⟩, hp.countStatement_declares⟩

/-- The label is declared for `HAVING`. -/
theorem plan_declares_labels : ∃ p, plan Sample.compiler.toSurroundings Sample.labels = .ok p ∧
    p.clauses.groupBy.map (·.outputs) = [[(0, 0)]] ∧
    (p.selectStatement .mysql).Everywhere Select.Declares ∧
    (p.countStatement "num_results").Everywhere Select.Declares := by
  obtain ⟨p, hp, hgroup, hhaving⟩ : ∃ p,
      plan Sample.compiler.toSurroundings Sample.labels = .ok p ∧
        p.clauses.groupBy.map (·.outputs) = [[(0, 0)]] ∧ p.clauses.havingRefs = [(0, 0)] := by
    decide +kernel
  obtain ⟨hselect, hcount⟩ := plan_declares hp
  refine ⟨p, hp, hgroup, (hselect _).1, (hcount _).2 fun e he o k ho => .inl ?_⟩
  have hmem : e.outputs ∈ p.clauses.groupBy.map (·.outputs) := List.mem_map_of_mem he
  rw [hgroup, List.mem_singleton] at hmem
  rw [hhaving, ← hmem]
  exact Expr.mem_outputs.2 ho

/-- The label is not declared for `GROUP BY`. -/
theorem count_undeclared_label : ∃ p,
    plan Sample.compiler.toSurroundings Sample.groupedLabels = .ok p ∧
      ¬(p.countStatement "num_results").Everywhere Select.Declares := by
  obtain ⟨p, hp, hgroup, hhaving, hcolumns⟩ : ∃ p,
      plan Sample.compiler.toSurroundings Sample.groupedLabels = .ok p ∧
        p.clauses.groupBy.map (·.outputs) = [[(0, 0)]] ∧ p.clauses.havingRefs = [] ∧
          p.clauses.groupColumns = [] := by decide +kernel
  obtain ⟨n, hover⟩ := plan_over hp
  refine ⟨p, hp, fun hdeclares => ?_⟩
  have hdeclared := (hover.countStatement_declares _).1 hdeclares
  obtain ⟨e, he, houtputs⟩ : ∃ e ∈ p.clauses.groupBy, e.outputs = [(0, 0)] :=
    List.mem_map.1 (hgroup ▸ List.mem_singleton_self _)
  have hmem : (0, 0) ∈ e.outputs := houtputs ▸ List.mem_singleton_self _
  rcases hdeclared e he 0 0 (Expr.mem_outputs.1 hmem) with hr | hr
  · rw [hhaving] at hr
    cases hr
  · rw [hcolumns] at hr
    cases hr

end ObjectQuery
