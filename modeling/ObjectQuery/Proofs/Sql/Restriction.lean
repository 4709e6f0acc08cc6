import ObjectQuery.Proofs.Compiler.Alignment
import ObjectQuery.Proofs.Plan.Order
import ObjectQuery.Proofs.Scope.Statement
import ObjectQuery.Proofs.Sql.Conditions
import ObjectQuery.Proofs.Sql.Counting

/-! # Conditions that every statement demands

A statement that reads tables demands that the rows of its root are of the right component, and so
does every join of a relation; what the query demands itself cannot weaken that, since it stands
between parentheses of its own.

* `Select.Restricts`: what a statement demands on behalf of a query;
* `Subquery.Resolved.restricts`: the statements over the joins of a query;
* `plan_restricts`: the statements of a plan and those inside them. -/

namespace ObjectQuery

open Sql Sql.Style

variable {env : Surroundings} {T : Text} {p : QueryPlan} {q r : Subquery} {g : JoinGraph}
  {c : ClauseSet} {n : JoinNode} {e x : Expr} {names : AliasNames} {style : Style} {sc : Scanner}
  {s : Select} {ks : List Nat} {d : Dialect}

/-! ## Queries inside queries -/

/-- The queries of a query: itself, and those nested in its expressions. -/
inductive Subquery.HasQuery : Subquery → Subquery → Prop
  | own {q : Subquery} : HasQuery q q
  | nested {q r t : Subquery} {e : Expr} (he : e ∈ queryExprs q.graph q.clauses)
    (hr : .subquery r ∈ e.pieces) (ht : HasQuery r t) : HasQuery q t

/-- The query of a plan. -/
def QueryPlan.query (p : QueryPlan) : Subquery := ⟨p.graph, p.clauses, p.emitted⟩

namespace Subquery.HasQuery

theorem snoc {t : Subquery} (h : q.HasQuery r) (he : e ∈ queryExprs r.graph r.clauses)
    (ht : .subquery t ∈ e.pieces) : q.HasQuery t := by
  induction h with
  | own => exact .nested he ht .own
  | nested he' hr _ ih => exact .nested he' hr (ih he)

theorem hasGraph (h : q.HasQuery r) : HasGraph q.graph q.clauses r.graph := by
  induction h with
  | own => exact .own
  | nested he hr _ ih => exact .nested he hr ih

/-- A query inside a query of the text comes from the text as well. -/
theorem origin {levels : Nat} (h : q.HasQuery r)
    (hs : QuerySound env (SubqueryFrom env levels).Any q.graph q.clauses) :
    r = q ∨ ∃ levels, (SubqueryFrom env levels).Any r := by
  induction h generalizing levels with
  | own => exact .inl rfl
  | nested he hr _ ih =>
    obtain ⟨T, param, off, inner, hfrom⟩ := (hs.expr he).pieces _ hr
    cases levels with
    | zero => cases hfrom
    | succ levels =>
      rcases ih hfrom.sound with rfl | hany
      · exact .inr ⟨_, _, _, _, _, hfrom⟩
      · exact .inr hany

end Subquery.HasQuery

/-! ## What statements demand -/

/-- The condition demands the text between parentheses of its own. -/
def Scanner.Encloses (sc : Scanner) (condition t : Text) : Prop :=
  sc.validate t = .ok () ∧ sc.Demands condition [enclosedText t]

namespace Sql

/-- The test for the rows of a component. -/
def Style.testText (style : Style) (qualifier : String) (d : Discriminator) : Text :=
  style.column qualifier d.column ++ (" = ".toList ++ style.dialect.literal d.value)

/-- The join of a node demands that its rows are of the right component, and what the query demands
of it. -/
structure Join.Restricts (sc : Scanner) (style : Style) (names : AliasNames) (n : JoinNode)
    (j : Join) : Prop where
  test : n.role = .target → ∀ d ∈ n.component.inheritance,
    sc.Demands (style.conditionText j.on) (testWords style (names.get n.id) d)
  condition : ∀ k ∈ n.condition,
    sc.Encloses (style.conditionText j.on) (style.text (k.expr.terms names))

/-- The statement reads the tables of a query, and demands that the rows of its root are of the right
component, what its joins demand, and what the query demands in `WHERE` and `HAVING`. -/
structure Select.Restricts (sc : Scanner) (style : Style) (names : AliasNames) (q : Subquery)
    (s : Select) : Prop where
  source : s.source = q.graph.root.rootTable names
  joins : s.joins = q.graph.sqlJoins names q.emitted
  root : ∀ d ∈ q.graph.root.component.inheritance, sc.Demands (style.conditionText s.filter)
    [enclosedText (style.testText (names.get q.graph.root.id) d)]
  joined : ∀ n ∈ q.graph.joins, n.id ∈ q.emitted →
    n.join names ∈ s.joins ∧ (n.join names).Restricts sc style names n
  filter : ∀ e ∈ q.clauses.filter,
    sc.Encloses (style.conditionText s.filter) (style.text (e.terms names))
  having : ∀ e ∈ q.clauses.having, ∃ x, (x = e ∨ x = e.inlined q.clauses) ∧
    sc.Encloses (style.havingText s.having) (style.text (x.terms names))
  unconditioned : q.graph.root.condition = none

/-- The statement has the tables and conditions of another one, with more conditions in front. -/
structure Select.Narrows (tests : List Conjunct) (t s : Select) : Prop where
  source : s.source = t.source
  joins : s.joins = t.joins
  filter : s.filter = tests ++ t.filter
  having : s.having = t.having

/-- The statement reads a derived table and demands nothing itself. -/
structure Select.Projects (s : Select) : Prop where
  source : ∃ q name spelled, s.source = .derived q name spelled
  joins : s.joins = []
  filter : s.filter = []
  having : s.having = none

end Sql

/-! ## Keys -/

theorem single_in : sc.Single "IN".toList := by
  have hall : "IN".toList.all isNameChar = true := rfl
  have hletters := List.all_eq_true.1 hall
  exact (Scanner.unbroken_of_forall fun c hc => Scanner.isBlank_of_isNameChar (hletters c hc)).single
    (tame_of_isNameChar hletters).neutral.1 (c := 'I') List.mem_cons_self (by decide)

theorem balanced_separateTerms {separator : String} {tss : List (List Term)}
    (hs : Tame separator.toList) (h : ∀ ts ∈ tss, sc.Balanced (style.text ts)) :
    sc.Balanced (style.text (separateTerms separator tss)) := by
  induction tss with
  | nil => exact Scanner.balanced_nil
  | cons ts tss ih =>
    obtain ⟨hts, hrest⟩ := List.forall_mem_cons.1 h
    cases tss with
    | nil => exact hts
    | cons us tss =>
      show sc.Balanced (style.text (ts ++ .raw separator.toList :: separateTerms _ (us :: tss)))
      rw [text_append, text_raw]
      exact hts.append (hs.neutral.1.append (ih hrest))

/-- The columns of a key, as they stand before `IN`: between parentheses when there are several. -/
theorem keyTuple_conjunctive {qualifier : String} {keys : List String} (hq : IsName qualifier)
    (hk : ∀ key ∈ keys, IsName key) :
    let columns := separateTerms ", " (keys.map fun key => [.column qualifier key])
    sc.Conjunctive (style.text
      (if 1 < keys.length then .raw ['('] :: columns ++ [.raw [')']] else columns)) := by
  have htext (key : String) : style.text [.column qualifier key] = style.column qualifier key :=
    List.append_nil _
  match keys with
  | [] => exact Scanner.conjunctive_nil
  | [key] =>
    show sc.Conjunctive (style.text [.column qualifier key])
    rw [htext]
    exact (style.single_column hq (hk key List.mem_cons_self)).conjunctive
  | key :: key' :: keys =>
    have hcolumns : sc.Balanced (style.text (separateTerms ", "
        ((key :: key' :: keys).map fun key => [.column qualifier key]))) := by
      refine balanced_separateTerms (by decide) (List.forall_mem_map.2 fun key hkey => ?_)
      rw [htext]
      exact (style.neutral_column hq (hk key hkey)).1
    have hseveral : 1 < (key :: key' :: keys).length := Nat.succ_lt_succ (Nat.succ_pos _)
    dsimp only
    rw [if_pos hseveral, List.cons_append, text_raw, text_append, text_raw]
    exact hcolumns.single_enclosed.conjunctive

/-! ## Joins -/

theorem Expr.Within.balanced (h : env.Plain) (hn : ∀ name ∈ names, IsName name)
    (he : e.Within env (Subquery.Aligned env style) ks) :
    env.config.scanner.Balanced (style.text (e.terms names)) :=
  ((rendering_aligned h style ks).expr hn he).balanced

theorem JoinNode.mem_predicates_condition {k : JoinCondition} (hk : k ∈ n.condition) :
    (k.expr, true) ∈ n.predicates := by
  obtain ⟨use, structural, condition, extra⟩ := n
  cases hk
  obtain ⟨kind, e⟩ := k
  refine List.mem_append_left _ ?_
  cases kind with
  | replacing => exact List.mem_singleton_self _
  | extending => exact List.mem_append_right _ (List.mem_singleton_self _)

theorem JoinNode.mem_predicates_extra (he : e ∈ n.extra) : (e, false) ∈ n.predicates :=
  List.mem_append_right _ (List.mem_map_of_mem he)

/-- A predicate that stands without parentheses is demanded by the schema. -/
theorem JoinNode.mem_of_mem_predicates (h : (e, false) ∈ n.predicates) :
    e ∈ n.structural ∨ e ∈ n.extra := by
  obtain ⟨use, structural, condition, extra⟩ := n
  have hstructural (h : (e, false) ∈ structural.toList.map fun e => (e, false)) :
      e ∈ structural := by
    obtain ⟨x, hx, he⟩ := List.mem_map.1 h
    cases he
    exact Option.mem_toList.1 hx
  rcases List.mem_append.1 h with h | h
  · refine .inl ?_
    obtain - | ⟨kind, y⟩ := condition
    · exact hstructural h
    · cases kind with
      | replacing => cases List.mem_singleton.1 h
      | extending =>
        rcases List.mem_append.1 h with h | h
        · exact hstructural h
        · cases List.mem_singleton.1 h
  · obtain ⟨x, hx, he⟩ := List.mem_map.1 h
    cases he
    exact .inr hx

theorem JoinNode.join_restricts (h : env.Plain) (hn : ∀ name ∈ names, IsName name)
    (hd : env.Describes n.component)
    (he : ∀ e ∈ n.exprs, e.Within env (Subquery.Aligned env style) ks) (hc : n.Conjoined)
    (ht : n.role = .target → ∀ d ∈ n.component.inheritance, Expr.discriminator n.id d ∈ n.extra) :
    (n.join names).Restricts env.config.scanner style names n := by
  have hmem {x : Expr × Bool} (hx : x ∈ n.predicates) :
      (⟨x.1.terms names, x.2⟩ : Conjunct) ∈ (n.join names).on := by
    rw [join_on]
    exact List.mem_map.2 ⟨x, hx, rfl⟩
  have hall : ∀ k ∈ (n.join names).on, env.config.scanner.Conjunctive (style.conjunctText k) := by
    rw [join_on]
    refine List.forall_mem_map.2 fun x hx => ?_
    have hwithin := he x.1 (mem_exprs_of_mem_predicates hx)
    obtain ⟨e, enclosed⟩ := x
    cases enclosed with
    | true => exact conjunctive_enclosed (hwithin.balanced h hn)
    | false =>
      have hconjoined : e.Conjoined :=
        (JoinNode.mem_of_mem_predicates hx).elim (hc.structural e) (hc.extra e)
      exact hconjoined.conjunctive h hn hwithin.sound
  refine ⟨fun hrole d hmem' => ?_, fun k hk => ?_⟩
  · have hextra := JoinNode.mem_predicates_extra (ht hrole d hmem')
    exact demands_condition hall (hmem hextra) (test_conjunctive h hd hmem' (isName_get hn n.id)).2
  · have hpredicate := JoinNode.mem_predicates_condition hk
    have hbalanced := (he _ (mem_exprs_of_mem_predicates hpredicate)).balanced h hn
    exact ⟨Scanner.validate_eq_ok.2 hbalanced, demands_enclosed hall (hmem hpredicate) hbalanced⟩

/-- The join of a node is written when its alias is emitted. -/
theorem join_mem_sqlJoins {emitted : List AliasId} (hnodup : g.aliases.Nodup) (hn : n ∈ g.joins)
    (hid : n.id ∈ emitted) : n.join names ∈ g.sqlJoins names emitted := by
  obtain ⟨root, joins⟩ := g
  obtain ⟨hroot, hnodup⟩ := List.nodup_cons.1 hnodup
  have hne : n.id ≠ root.id := fun he => hroot (List.mem_map.2 ⟨n, hn, he⟩)
  rw [JoinGraph.sqlJoins, arrangeJoins, joins_eq]
  refine List.mem_filterMap.2 ⟨n.id, List.mem_filter.2 ⟨hid, by simpa using hne⟩, ?_⟩
  rw [find_join hnodup hn]
  rfl

/-! ## Queries -/

/-- The conditions of a query in `WHERE`: its own, and the test of its root. -/
def Subquery.conditions (names : AliasNames) (q : Subquery) : List Conjunct :=
  (Expr.termsOption names q.clauses.filter).toList.map (fun t => ⟨t, true⟩) ++
    q.graph.root.rootTest names

/-- What is known of a query whose statements are written. -/
structure Subquery.Resolved (env : Surroundings) (style : Style) (q : Subquery) : Prop where
  within : ∃ ks, QueryWithin env (Subquery.Aligned env style) ks q.graph q.clauses
  hopping : q.graph.Hopping
  nodup : q.graph.aliases.Nodup
  root : q.graph.root.condition = none

namespace Subquery.Resolved

section

variable (h : q.Resolved env style) (hplain : env.Plain) (hn : ∀ name ∈ names, IsName name)
include h hplain hn

theorem balanced_test {d : Discriminator} (hd : d ∈ q.graph.root.component.inheritance) :
    env.config.scanner.Balanced
      (style.text [.equals (names.get q.graph.root.id) d.column d.value]) := by
  obtain ⟨ks, hwithin⟩ := h.within
  have hroot := (hwithin.derived q.graph.root List.mem_cons_self).described
  exact (test_conjunctive hplain hroot hd (isName_get hn q.graph.root.id)).1.balanced

theorem balanced_filter (he : e ∈ q.clauses.filter) :
    env.config.scanner.Balanced (style.text (e.terms names)) := by
  obtain ⟨ks, hwithin⟩ := h.within
  exact (hwithin.clauses.filter e he).balanced hplain hn

theorem conjunctive_conditions :
    ∀ k ∈ q.conditions names, env.config.scanner.Conjunctive (style.conjunctText k) := by
  intro k hk
  rcases List.mem_append.1 hk with hk | hk
  · obtain ⟨ts, hts, rfl⟩ := List.mem_map.1 hk
    rw [termsOption_eq, Option.mem_toList, Option.map_eq_some_iff] at hts
    obtain ⟨e, he, rfl⟩ := hts
    exact conjunctive_enclosed (h.balanced_filter hplain hn he)
  · obtain ⟨d, hd, rfl⟩ := List.mem_map.1 hk
    exact conjunctive_enclosed (h.balanced_test hplain hn (Option.mem_toList.1 hd))

theorem joined (hmem : n ∈ q.graph.joins) :
    (n.join names).Restricts env.config.scanner style names n := by
  obtain ⟨ks, hwithin⟩ := h.within
  have hnode : n ∈ q.graph.nodes := List.mem_cons_of_mem _ hmem
  refine JoinNode.join_restricts hplain hn (hwithin.derived n hnode).described
    (hwithin.joins n hnode) (h.hopping.joins.conjoined hmem) fun hrole => ?_
  rcases h.hopping.joins.mem hmem with ⟨r, hr⟩ | ⟨m, -, hb, -⟩
  · exact hr.tested
  · rw [hb.role] at hrole
    cases hrole

/-- What the query demands of its groups may have its references replaced. -/
theorem balanced_having (he : e ∈ q.clauses.having) (hx : x = e ∨ x = e.inlined q.clauses) :
    env.config.scanner.Balanced (style.text (x.terms names)) := by
  obtain ⟨ks, hwithin⟩ := h.within
  have hhaving := hwithin.clauses.having e he
  rcases hx with rfl | rfl
  · exact hhaving.balanced hplain hn
  · exact (hhaving.inlined hwithin.clauses.select).balanced hplain hn

end

/-- A statement over the joins of a query, with its conditions and any others, demands what the query
and the schema do. -/
theorem restricts (h : q.Resolved env style) (hplain : env.Plain)
    (hn : ∀ name ∈ names, IsName name) {tests : List Conjunct} {hydrated : Bool}
    (hs : Select.Narrows tests (querySelect names hydrated q.graph q.emitted c) s)
    (hc : c.filter = q.clauses.filter)
    (hh : c.having = q.clauses.having ∨ c.having = q.clauses.having.map (·.inlined q.clauses))
    (htests : ∀ k ∈ tests, env.config.scanner.Conjunctive (style.conjunctText k)) :
    s.Restricts env.config.scanner style names q := by
  have hjoins := hs.joins.trans toSelect_joins
  have hfilter : s.filter = tests ++ q.conditions names := by
    rw [hs.filter, toSelect_filter, hc]
    rfl
  have hhaving := hs.having.trans toSelect_having
  have hall : ∀ k ∈ s.filter, env.config.scanner.Conjunctive (style.conjunctText k) := by
    rw [hfilter]
    exact List.forall_mem_append.2 ⟨htests, h.conjunctive_conditions hplain hn⟩
  have hmem {k : Conjunct} (hk : k ∈ q.conditions names) : k ∈ s.filter := by
    rw [hfilter]
    exact List.mem_append_right _ hk
  refine ⟨hs.source.trans toSelect_source, hjoins, fun d hd => ?_, fun n hnode hid => ⟨?_, ?_⟩,
    fun e he => ?_, fun e he => ?_, h.root⟩
  · have hin : ⟨[.equals (names.get q.graph.root.id) d.column d.value], true⟩ ∈
        q.conditions names :=
      List.mem_append_right _ (List.mem_map_of_mem (Option.mem_toList.2 hd))
    have hdemands := demands_enclosed hall (hmem hin) (h.balanced_test hplain hn hd)
    rwa [text_equals] at hdemands
  · rw [hjoins]
    exact join_mem_sqlJoins h.nodup hnode hid
  · exact h.joined hplain hn hnode
  · have hbalanced := h.balanced_filter hplain hn he
    have hterms : e.terms names ∈ (Expr.termsOption names q.clauses.filter).toList := by
      rw [termsOption_eq, he]
      exact List.mem_singleton_self _
    have hin : ⟨e.terms names, true⟩ ∈ q.conditions names :=
      List.mem_append_left _ (List.mem_map_of_mem hterms)
    exact ⟨Scanner.validate_eq_ok.2 hbalanced, demands_enclosed hall (hmem hin) hbalanced⟩
  · obtain ⟨x, hx, hwritten⟩ : ∃ x, (x = e ∨ x = e.inlined q.clauses) ∧
        s.having = some (x.terms names) := by
      rw [hhaving]
      rcases hh with hc | hc
      · exact ⟨e, .inl rfl, by rw [hc, he]; rfl⟩
      · exact ⟨e.inlined q.clauses, .inr rfl, by rw [hc, he]; rfl⟩
    have hbalanced := h.balanced_having hplain hn he hx
    refine ⟨x, hx, Scanner.validate_eq_ok.2 hbalanced, ?_⟩
    rw [hwritten]
    exact demands_having hbalanced

end Subquery.Resolved

/-! ## Plans -/

/-- The statement reads the joins of the plan, or it is that of a query inside the plan, under names
of the plan, and demands what has to be demanded; or it only reads from such a statement. -/
def QueryPlan.Restricted (p : QueryPlan) (sc : Scanner) (style : Style) (s : Select) : Prop :=
  s.Projects ∨ ∃ names ∈ p.aliases :: p.shadowAliases.toList,
    s.Restricts sc style names p.query ∨
      ∃ q, p.query.HasQuery q ∧ s = q.toSelect names ∧ s.Restricts sc style names q

/-- Inside its derived tables the statement reads the joins of the plan under the given names, and
demands what has to be demanded; every statement inside it does as well. -/
structure QueryPlan.RestrictedAs (p : QueryPlan) (sc : Scanner) (style : Style) (names : AliasNames)
    (s : Select) : Prop where
  core : s.core.Restricts sc style names p.query
  everywhere : s.Everywhere (p.Restricted sc style)

/-- What is known of a plan whose statements are written. -/
structure QueryPlan.Resolved (env : Surroundings) (style : Style) (p : QueryPlan) : Prop where
  names : ∀ names ∈ p.aliases :: p.shadowAliases.toList, ∀ name ∈ names, IsName name
  queries : ∀ q, p.query.HasQuery q → q.Resolved env style
  limited : ∀ d, ObjectQuery.Aligned env.config.scanner ((p.limitedKeys d).parts style)

theorem plan_resolved (hplain : env.Plain) (h : plan env T = .ok p) (style : Style) :
    p.Resolved env style := by
  have hp := plan_spec h
  have hwithin := hp.withinAligned hplain style
  refine ⟨?_, fun q hq => ?_, fun d => ?_⟩
  · refine List.forall_mem_cons.2 ⟨hp.aliases, fun names hs => hp.shadow names ?_⟩
    exact Option.mem_toList.1 hs
  · have hhopping : q.graph.Hopping :=
      hq.hasGraph.resolved h fun _ _ _ _ _ _ => resolveFrom_hops
    rcases hq.origin hp.sound with rfl | ⟨levels, T, param, off, inner, hfrom⟩
    · obtain ⟨parsed, -, hquery⟩ := hp.query
      exact ⟨⟨_, hwithin.toQueryWithin⟩, hhopping, hquery.graph.nodup, hquery.graph.root⟩
    · have hgraph := hfrom
      cases levels with
      | zero => cases hgraph
      | succ levels =>
        obtain ⟨-, -, -, parsed, -, hquery⟩ := hgraph
        exact ⟨⟨_, hfrom.withinAligned hplain⟩, hhopping, hquery.graph.nodup, hquery.graph.root⟩
  · have hrendering := rendering_aligned hplain style p.ordinals
    exact (hrendering.limitedKeys hwithin d).parts hrendering.toCompositional

namespace QueryPlan.Resolved

variable (h : p.Resolved env style)
include h

theorem aliases : ∀ name ∈ p.aliases, IsName name := h.names _ List.mem_cons_self

omit h in
theorem shadow_mem : p.shadowAliases.getD p.aliases ∈ p.aliases :: p.shadowAliases.toList := by
  cases p.shadowAliases <;> simp

theorem query (hplain : env.Plain) (hnames : names ∈ p.aliases :: p.shadowAliases.toList)
    (hq : p.query.HasQuery q) :
    (q.toSelect names).Restricts env.config.scanner style names q := by
  rw [q.toSelect_eq]
  exact (h.queries q hq).restricts hplain (h.names names hnames) ⟨rfl, rfl, rfl, rfl⟩ rfl (.inl rfl)
    (List.forall_mem_nil _)

/-- The statements of subqueries. -/
theorem nested (hplain : env.Plain) (hnames : names ∈ p.aliases :: p.shadowAliases.toList)
    (hq : p.query.HasQuery q) :
    (q.toSelect names).Everywhere (p.Restricted env.config.scanner style) :=
  q.everywhere (Q := p.query.HasQuery) hq
    (fun q hq => .inr ⟨names, hnames, .inr ⟨q, hq, rfl, h.query hplain hnames hq⟩⟩)
    fun _ hq _ he _ hr => hq.snoc he hr

/-- A statement over the joins of the plan, with its conditions. -/
theorem restricts (hplain : env.Plain) (hnames : names ∈ p.aliases :: p.shadowAliases.toList)
    {tests : List Conjunct} (hs : Select.Narrows tests (p.toSelect names c) s)
    (hc : c.filter = p.clauses.filter)
    (hh : c.having = p.clauses.having ∨ c.having = p.clauses.having.map (·.inlined p.clauses))
    (htests : ∀ k ∈ tests, env.config.scanner.Conjunctive (style.conjunctText k)) :
    s.Restricts env.config.scanner style names p.query :=
  (h.queries _ .own).restricts hplain (h.names names hnames) hs hc hh htests

omit h in
theorem restrictedAs (hnames : names ∈ p.aliases :: p.shadowAliases.toList)
    (hlevels : s.levels = [s]) (hs : s.Restricts sc style names p.query)
    (hin : ∀ q, .select q ∈ s.terms → q.Everywhere (p.Restricted sc style)) :
    p.RestrictedAs sc style names s := by
  refine ⟨?_, (Select.everywhere_of_levels hlevels hin).2 (.inr ⟨names, hnames, .inl hs⟩)⟩
  rw [Select.core_of_levels hlevels]
  exact hs

/-! ## The statement of a plan -/

theorem limitedKeys_restricted (hplain : env.Plain) (d : Dialect) :
    p.RestrictedAs env.config.scanner style (p.shadowAliases.getD p.aliases) (p.limitedKeys d) := by
  have hroots {items : List Sql.Item} {limit offset : Option Nat} :
      Select.Restricts env.config.scanner style (p.shadowAliases.getD p.aliases) p.query
        { p.toSelect (p.shadowAliases.getD p.aliases) p.rootClauses with
          items := items, limit := limit, offset := offset } :=
    h.restricts hplain shadow_mem (c := p.rootClauses) ⟨rfl, rfl, rfl, rfl⟩ rfl (.inr rfl)
      (List.forall_mem_nil _)
  constructor
  · obtain ⟨limit, offset, hcore⟩ := p.limitedKeys_core d
    rw [hcore]
    exact hroots
  · refine Select.everywhere_iff.2 fun s hs => ?_
    rcases QueryPlan.mem_levels_limitedKeys hs with hs | ⟨limit, offset, rfl⟩
    · refine ⟨?_, fun q hx => absurd rfl ((hs.bare hx).2 q)⟩
      obtain ⟨distinct, q, name, spelled, limit, offset⟩ := hs
      exact .inl ⟨⟨q, name, spelled, rfl⟩, rfl, rfl, rfl⟩
    · refine ⟨.inr ⟨_, shadow_mem, .inl hroots⟩, fun q hx => ?_⟩
      obtain ⟨e, he, r, hr, rfl⟩ := (QueryPlan.writtenFor_rootSelect hx).select
      obtain ⟨y, hy, hr⟩ := QueryPlan.exists_of_mem_rootExprs he hr
      exact h.nested hplain shadow_mem (.nested hy hr .own)

/-- That the key of the root is among those that are listed has no alternatives. -/
theorem rootAmong_conjunctive (hplain : env.Plain) (d : Dialect) :
    env.config.scanner.Conjunctive (style.conjunctText (p.rootAmong (p.limitedKeys d))) := by
  obtain ⟨ks, hwithin⟩ := (h.queries _ .own).within
  have hroot := (hwithin.derived p.graph.root List.mem_cons_self).described
  have hkey : ∀ key ∈ p.rootKeys, IsName key := fun key hk =>
    hplain.columns _ (hasColumn_of_mem_keyNames hroot hk)
  have htuple : env.config.scanner.Conjunctive (style.text _) :=
    keyTuple_conjunctive (isName_get h.aliases p.graph.root.id) hkey
  have hkeys : env.config.scanner.Single (enclosedText _) := (h.limited d).balanced.single_enclosed
  have htext : style.text [.raw " IN (".toList, .select (p.limitedKeys d), .raw [')']] =
      ' ' :: ("IN".toList ++
        ' ' :: enclosedText (((p.limitedKeys d).parts style).flatMap Sql.Part.render)) := by
    simp [text, enclosedText, Term.partsAll, Term.parts, Sql.Part.render]
  show env.config.scanner.Conjunctive (style.text (_ ++ _))
  rw [text_append, htext]
  exact htuple.append_blank (single_in.conjunctive.append_blank hkeys.conjunctive rfl) rfl

theorem selectStatement_restricted (hplain : env.Plain) (d : Dialect) :
    p.RestrictedAs env.config.scanner style p.aliases (p.selectStatement d) := by
  have hnames : p.aliases ∈ p.aliases :: p.shadowAliases.toList := List.mem_cons_self
  refine restrictedAs hnames QueryPlan.levels_selectStatement ?_ fun q hx => ?_
  · rw [QueryPlan.selectStatement]
    split
    · exact h.restricts hplain hnames (c := p.clauses) ⟨rfl, rfl, rfl, rfl⟩ rfl (.inl rfl)
        (List.forall_mem_singleton.2 (h.rootAmong_conjunctive hplain d))
    · exact h.restricts hplain hnames (c := p.clauses) ⟨rfl, rfl, rfl, rfl⟩ rfl (.inl rfl)
        (List.forall_mem_nil _)
  · rcases QueryPlan.writtenFor_selectStatement hx with hx | ⟨-, hx⟩
    · obtain ⟨e, he, r, hr, rfl⟩ := hx.select
      exact h.nested hplain hnames (.nested he hr .own)
    · cases hx
      exact (h.limitedKeys_restricted hplain d).everywhere

/-! ## The statement that counts -/

theorem countBody_restricted (hplain : env.Plain) {distinct : Bool} {items : List Sql.Item}
    (hitems : ∀ x ∈ items.flatMap (·.terms), p.CountTerm x) :
    p.RestrictedAs env.config.scanner style p.aliases (p.countBody distinct items) := by
  have hnames : p.aliases ∈ p.aliases :: p.shadowAliases.toList := List.mem_cons_self
  refine restrictedAs hnames QueryPlan.levels_countBody ?_ fun q hx => ?_
  · exact h.restricts hplain hnames (c := p.clauses) ⟨rfl, rfl, rfl, rfl⟩ rfl (.inl rfl)
      (List.forall_mem_nil _)
  · obtain ⟨e, he, r, hr, rfl⟩ := (QueryPlan.countTerm_countBody hitems hx).select
    have he := mem_queryExprs_reorder (fun _ ht => absurd ht List.not_mem_nil) he
    exact h.nested hplain hnames (.nested he hr .own)

omit h in
theorem selectFrom_restricted {distinct : Bool} {items : List Sql.Item} {q : Select}
    {name : String} (hitems : ∀ x ∈ items.flatMap (·.terms), x.Bare)
    (hq : p.RestrictedAs sc style names q) :
    p.RestrictedAs sc style names (QueryPlan.selectFrom distinct items q name) := by
  constructor
  · rw [Select.core_of_source (q := q) rfl]
    exact hq.core
  · refine (QueryPlan.everywhere_selectFrom hitems).2 ⟨?_, hq.everywhere⟩
    exact .inl ⟨⟨q, name, false, rfl⟩, rfl, rfl, rfl⟩

theorem countStatement_restricted (hplain : env.Plain) (countAlias : String) :
    p.RestrictedAs env.config.scanner style p.aliases (p.countStatement countAlias) := by
  have hform := p.countsBy countAlias
  generalize p.countStatement countAlias = s at hform
  cases hform with
  | groups =>
    refine selectFrom_restricted QueryPlan.bare_countItems ?_
    exact h.countBody_restricted hplain fun x => QueryPlan.countTerm_groupStatement
  | having =>
    refine selectFrom_restricted QueryPlan.bare_countItems
      (selectFrom_restricted QueryPlan.bare_keyItems ?_)
    exact h.countBody_restricted hplain fun x => QueryPlan.countTerm_rowStatement
  | keys =>
    refine selectFrom_restricted QueryPlan.bare_countItems ?_
    exact h.countBody_restricted hplain fun x hx => .inl (QueryPlan.bare_keyItems x hx)
  | rows =>
    exact h.countBody_restricted hplain fun x hx => .inl (QueryPlan.bare_countItems x hx)

end QueryPlan.Resolved

/-- The statements of a plan, those that list or count its roots, and those of the queries inside it
demand of their root and of every target that is joined that its rows are of the right component,
whatever the query demands itself; and what the query demands is balanced and stands between
parentheses of its own. No other statement inside them reads a table. -/
theorem plan_restricts (hplain : env.Plain) (h : plan env T = .ok p) (style : Style) :
    (∀ names ∈ p.aliases :: p.shadowAliases.toList, ∀ q, p.query.HasQuery q →
      (q.toSelect names).Restricts env.config.scanner style names q) ∧
    (∀ d, p.RestrictedAs env.config.scanner style p.aliases (p.selectStatement d) ∧
      p.RestrictedAs env.config.scanner style (p.shadowAliases.getD p.aliases) (p.limitedKeys d)) ∧
    ∀ countAlias,
      p.RestrictedAs env.config.scanner style p.aliases (p.countStatement countAlias) := by
  have hp := plan_resolved hplain h style
  refine ⟨fun names hnames q hq => hp.query hplain hnames hq, fun d => ?_, fun countAlias => ?_⟩
  · exact ⟨hp.selectStatement_restricted hplain d, hp.limitedKeys_restricted hplain d⟩
  · exact hp.countStatement_restricted hplain countAlias

namespace Sample

/-- Conditions with alternatives stand in the place of what the relation demands, and in both
queries. -/
def alternatives : Text :=
  ("SELECT u.id FROM User u LEFT JOIN u.phones p ON p.number = '5' OR u.id > 1 " ++
    "WHERE u.name = 'a' OR u.id IN (SELECT q.user_id FROM Phone q WHERE q.number = '6' OR q.id > 2) " ++
    "LIMIT 10").toList

end Sample

/-- The rows that are joined have to be phones. -/
theorem plan_restricts_alternatives : ∃ p j,
    plan Sample.compiler.toSurroundings Sample.alternatives = .ok p ∧
      p.usesLimitSubquery .mysql = true ∧ (p.selectStatement .mysql).joins = [j] ∧
      Sample.compiler.config.scanner.Demands (Sample.compiler.style.conditionText j.on)
        ["`p`.`kind`".toList, "=".toList, "'phone?'".toList] := by
  obtain ⟨p, hp, hlimit, hjoins, hnodes, hemitted, hnames⟩ : ∃ p,
      plan Sample.compiler.toSurroundings Sample.alternatives = .ok p ∧
        p.usesLimitSubquery .mysql = true ∧ (p.selectStatement .mysql).joins.length = 1 ∧
        p.graph.joins.map (fun n => (n.id, n.role, n.component.inheritance)) =
          [(1, .target, some ⟨"kind", .string "phone?"⟩)] ∧
        p.emitted = [0, 1] ∧ p.aliases = ["u", "p", "p2"] := by decide +kernel
  obtain ⟨-, hselect, -⟩ := plan_restricts Sample.plain hp Sample.compiler.style
  have hcore := (hselect .mysql).1.core
  rw [Select.core_of_levels QueryPlan.levels_selectStatement] at hcore
  obtain ⟨n, hn, hnode⟩ := List.map_eq_singleton_iff.1 hnodes
  obtain ⟨hid, hrole, hd⟩ : n.id = 1 ∧ n.role = .target ∧
      n.component.inheritance = some ⟨"kind", .string "phone?"⟩ := by simpa using hnode
  have hemit : n.id ∈ p.emitted := by
    rw [hid, hemitted]
    decide
  have hjoined := hcore.joined n (hn ▸ List.mem_singleton_self n) hemit
  obtain ⟨j, hj⟩ := List.length_eq_one_iff.1 hjoins
  have hjoin : n.join p.aliases = j := List.mem_singleton.1 (hj ▸ hjoined.1)
  have htest := hjoined.2.test hrole _ hd
  rw [hjoin, hid, hnames] at htest
  exact ⟨p, j, hp, hlimit, hj, htest⟩

end ObjectQuery
