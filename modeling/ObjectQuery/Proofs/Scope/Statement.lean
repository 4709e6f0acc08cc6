import ObjectQuery.Proofs.Compiler.Alignment
import ObjectQuery.Proofs.Scope.Limited

/-! # Statements of plans are in scope

* `plan_inScope`: every alias that a plan reads is introduced where it is read, and so is every
  qualifier of the statement of the plan;
* `plan_limitsApart`: the statement that lists the limited roots refers to nothing outside itself,
  and reads what the outer one reads under names of its own. -/

namespace ObjectQuery

open Sql

variable {env : Surroundings} {T : Text} {p : QueryPlan} {a : AliasId} {n : Nat} {d : Dialect}
  {names shadow : AliasNames} {outer : Set String} {s : Select}

/-! ## Plans -/

/-- The aliases that have a name, and a second one where there are any. -/
def QueryPlan.named (p : QueryPlan) : Set AliasId :=
  {a | p.aliases.get a ≠ "" ∧ ∀ names ∈ p.shadowAliases, names.get a ≠ ""}

theorem PlanOver.mem_named (h : PlanOver env n p) (ha : a < n) : a ∈ p.named := by
  refine ⟨h.named a ha, fun names hs => ?_⟩
  by_cases hmem : a ∈ p.emitted
  · exact (h.shadow names hs).named a hmem
  · rw [(h.shadow names hs).same a hmem]
    exact h.named a ha

/-- When the orderings of the schema name columns without aliases, every alias that a plan reads is
introduced where it is read, and has a name; so every qualifier of its statement is that of a table
in scope. -/
theorem plan_inScope (h : plan env T = .ok p) (hbare : env.BareOrderings) :
    InScope p.named ∅ p.graph p.clauses p.emitted ∧ ∀ d, (p.selectStatement d).Scoped ∅ := by
  obtain ⟨n, hp⟩ := plan_over h
  have hsound := (plan_spec h).sound
  have hnamed : ∀ a < n, a ∈ p.named := fun a => hp.mem_named
  have hall := hp.inScope hsound hbare hnamed
  refine ⟨hall, QueryPlan.selectStatement_scoped hall (hp.inScope_asked hsound hnamed)
    (fun a ha => ha.1) fun names hs a ha => ha.2 names hs⟩

namespace Sample

/-- The limit counts users, of whom the joined phones make several rows; a subquery reads the
phones that are joined. -/
def limited : Text :=
  ["SELECT", "u.id", "FROM", "User", "u", "LEFT", "JOIN", "u.phones", "p", "WITH",
    "p.number <> ?", "WHERE", "u.id IN (", "SELECT", "q.user_id", "FROM", "Phone", "q", "WHERE",
    "q.number = p.number)", "ORDER", "BY", "u.name", "LIMIT", "10"].flatMap fun word =>
      word.toList ++ [' ']

theorem bareOrderings : compiler.toSurroundings.BareOrderings := by
  intro c hc
  have hall : ∀ o ∈ user.orderings ++ phone.orderings,
      compiler.config.scanner.BareOrdering o.toList := by decide +kernel
  rcases describes hc with rfl | rfl
  · exact fun o ho => hall o (List.mem_append_left _ ho)
  · exact fun o ho => hall o (List.mem_append_right _ ho)

end Sample

/-- The phones are joined, and the rows are ordered by their numbers as the schema says. -/
theorem plan_inScope_sample : ∃ p, plan Sample.compiler.toSurroundings Sample.limited = .ok p ∧
    p.emitted = [0, 1] ∧ p.clauses.orderBy.map (·.implicit) = [false, true] ∧
    InScope p.named ∅ p.graph p.clauses p.emitted ∧ ∀ d, (p.selectStatement d).Scoped ∅ := by
  obtain ⟨p, hp, hemitted, himplicit⟩ : ∃ p,
      plan Sample.compiler.toSurroundings Sample.limited = .ok p ∧ p.emitted = [0, 1] ∧
        p.clauses.orderBy.map (·.implicit) = [false, true] := by decide +kernel
  obtain ⟨hall, hselect⟩ := plan_inScope hp Sample.bareOrderings
  exact ⟨p, hp, hemitted, himplicit, hall, hselect⟩

/-! ## Limited statements -/

namespace Sql

mutual

/-- The statements inside a source. -/
def Source.levels : Source → List Select
  | .table .. => []
  | .derived query _ _ => query.levels

/-- A statement and those of the derived tables that it reads from, from the outside in. -/
def Select.levels : Select → List Select
  | ⟨distinct, items, source, joins, filter, groupBy, having, orderBy, limit, offset⟩ =>
    ⟨distinct, items, source, joins, filter, groupBy, having, orderBy, limit, offset⟩ ::
      source.levels

end

theorem Select.levels_eq (s : Select) : s.levels = s :: s.source.levels := by
  cases s
  rfl

/-- The statement inside all derived tables, which reads tables itself. -/
def Select.core (s : Select) : Select := s.levels.getLastD s

theorem Select.core_of_levels (h : s.levels = [s]) : s.core = s := by
  rw [core, h]
  rfl

theorem Select.core_of_source {q : Select} {name : String} {spelled : Bool}
    (h : s.source = .derived q name spelled) : s.core = q.core := by
  rw [core, core, s.levels_eq, h]
  show (s :: q.levels).getLastD s = q.levels.getLastD q
  rw [q.levels_eq]
  rfl

end Sql

namespace QueryPlan

/-- The second name of a join in the place of its first; other names stay as they are. -/
def shadowName (p : QueryPlan) (shadow : AliasNames) (name : String) : String :=
  ((p.emitted.find? fun a => p.aliases.get a == name).map shadow.get).getD name

/-- The statement that lists the limited roots stands apart from the statement around it: it
introduces every qualifier in it, and those of its joins are their second names; its joins and
conditions are those of the statement around it, renamed, and bind the same values. -/
structure LimitsApart (p : QueryPlan) (d : Dialect) (shadow : AliasNames) : Prop where
  closed : (p.limitedKeys d).Scoped ∅
  introduced : (p.limitedKeys d).core.introduced = p.emitted.map shadow.get
  renames : Resolver.Renames p.aliases p.emitted p.aliases shadow
  source : (p.limitedKeys d).core.source =
    (p.selectStatement d).source.rename (p.shadowName shadow)
  joins : (p.limitedKeys d).core.joins =
    Join.renameAll (p.shadowName shadow) (p.selectStatement d).joins
  joinBinds : ∀ style, ((p.limitedKeys d).core.joins.flatMap fun j => conjunctBinds style j.on) =
    (p.selectStatement d).joins.flatMap fun j => conjunctBinds style j.on
  filter : ∃ own, (p.selectStatement d).filter = p.rootAmong (p.limitedKeys d) :: own ∧
    (p.limitedKeys d).core.filter = Conjunct.renameAll (p.shadowName shadow) own ∧
      ∀ style, conjunctBinds style (p.limitedKeys d).core.filter = conjunctBinds style own

theorem exists_shadow (h : p.usesLimitSubquery d = true) :
    ∃ shadow, p.shadowAliases = some shadow := by
  simp only [usesLimitSubquery, Bool.and_eq_true] at h
  exact Option.isSome_iff_exists.1 h.1.1.1

theorem limitedKeys_core (p : QueryPlan) (d : Dialect) : ∃ limit offset,
    (p.limitedKeys d).core = { p.toSelect (p.shadowAliases.getD p.aliases) p.rootClauses with
      items := (p.rootSelect (p.shadowAliases.getD p.aliases)).items
      limit := limit
      offset := offset } := by
  simp only [limitedKeys]
  split
  · refine ⟨none, none, ?_⟩
    split <;> rfl
  · refine ⟨p.clauses.limit, p.clauses.offset, ?_⟩
    split
    · rfl
    · split <;> rfl

/-- The conditions of a plan: that of the query, and the test of the root. -/
def conditions (p : QueryPlan) (names : AliasNames) : List Conjunct :=
  (Expr.termsOption names p.clauses.filter).toList.map (fun t => ⟨t, true⟩) ++
    p.graph.root.rootTest names

theorem limitedKeys_repeats (h : p.shadowAliases = some shadow) (d : Dialect) :
    (p.limitedKeys d).core.source = p.graph.root.rootTable shadow ∧
      (p.limitedKeys d).core.joins = p.graph.sqlJoins shadow p.emitted ∧
      (p.limitedKeys d).core.filter = p.conditions shadow := by
  obtain ⟨limit, offset, hcore⟩ := p.limitedKeys_core d
  rw [hcore, h]
  exact ⟨rfl, rfl, rfl⟩

theorem selectStatement_repeats (h : p.usesLimitSubquery d = true) :
    (p.selectStatement d).source = p.graph.root.rootTable p.aliases ∧
      (p.selectStatement d).joins = p.graph.sqlJoins p.aliases p.emitted ∧
      (p.selectStatement d).filter = p.rootAmong (p.limitedKeys d) :: p.conditions p.aliases := by
  have hfull : (p.toSelect p.aliases p.clauses).source = p.graph.root.rootTable p.aliases ∧
      (p.toSelect p.aliases p.clauses).joins = p.graph.sqlJoins p.aliases p.emitted ∧
      (p.toSelect p.aliases p.clauses).filter = p.conditions p.aliases := by
    rw [toSelect, conditions]
    cases p.clauses
    exact ⟨rfl, rfl, rfl⟩
  rw [selectStatement, if_pos h]
  exact ⟨hfull.1, hfull.2.1, congrArg _ hfull.2.2⟩

end QueryPlan

/-- The second name of an occurrence, whether it has one of its own or not. -/
theorem PlanOver.shadowName_get (h : PlanOver env n p)
    (hr : Resolver.Renames p.aliases p.emitted p.aliases shadow) (a : AliasId) :
    p.shadowName shadow (p.aliases.get a) = shadow.get a := by
  rw [QueryPlan.shadowName]
  cases hf : p.emitted.find? fun b => p.aliases.get b == p.aliases.get a with
  | none =>
    have ha : a ∉ p.emitted := fun hmem => by
      have := List.find?_eq_none.1 hf a hmem
      simp at this
    exact (hr.same a ha).symm
  | some b =>
    have hb : b < n := h.ids b (h.emits.subset b (List.mem_of_find?_eq_some hf))
    have hba : p.aliases.get b = p.aliases.get a := by simpa using List.find?_some hf
    by_cases ha : a < n
    · have hlength := h.length_eq
      rw [AliasNames.get_injective h.nodup (hlength ▸ hb) (hlength ▸ ha) hba]
      rfl
    · -- numbers that were never given out have no name
      refine absurd (hba.trans ?_) (h.named b hb)
      rw [AliasNames.get, List.getD_eq_default _ _ (h.length_eq ▸ Nat.le_of_not_lt ha)]

theorem PlanOver.follows (h : PlanOver env n p)
    (hr : Resolver.Renames p.aliases p.emitted p.aliases shadow) :
    Follows (p.shadowName shadow) p.aliases shadow (p.graph.freshIn 0 n) :=
  ⟨h.shadowName_get hr, fun a ha => hr.same a fun hmem => ha.2 (h.emits.subset a hmem)⟩

theorem JoinGraph.Emits.joinNames {graph : JoinGraph} {referenced : AliasSet}
    {emitted : List AliasId} (h : graph.Emits referenced emitted) (names : AliasNames) :
    names.get graph.root.id :: (emitted.filterMap (graph.sqlJoin? names)).map (·.name) =
      emitted.map names.get := by
  obtain ⟨root, nodup, subset, -, -, -⟩ := h
  obtain ⟨rest, rfl⟩ := List.head?_eq_some_iff.1 root
  have hroot : graph.sqlJoin? names graph.root.id = none := if_pos rfl
  rw [List.filterMap_cons_none hroot, List.map_cons]
  refine congrArg _ ?_
  have hrest : ∀ a ∈ rest, ∃ j, graph.sqlJoin? names a = some j ∧ j.name = names.get a := by
    intro a ha
    refine exists_sqlJoin names (subset a (List.mem_cons_of_mem _ ha)) ?_
    rintro rfl
    exact (List.nodup_cons.1 nodup).1 ha
  clear root nodup subset hroot
  induction rest with
  | nil => rfl
  | cons a rest ih =>
    obtain ⟨⟨j, hj, hname⟩, hrest⟩ := List.forall_mem_cons.1 hrest
    rw [List.filterMap_cons_some hj, List.map_cons, List.map_cons, hname, ih hrest]

/-- The joins of a graph bind the same values whatever their names are. -/
theorem joinBinds_eq {graph : JoinGraph} {emitted : List AliasId} {style : Style}
    (h : ∀ m ∈ graph.nodes, ∀ e ∈ m.exprs, e.Sound env Subquery.Bound) (names names' : AliasNames) :
    ((graph.sqlJoins names emitted).flatMap fun j => conjunctBinds style j.on) =
      (graph.sqlJoins names' emitted).flatMap fun j => conjunctBinds style j.on := by
  rw [sqlJoins_eq, sqlJoins_eq]
  induction emitted with
  | nil => rfl
  | cons a emitted ih =>
    rw [List.filterMap_cons, List.filterMap_cons, JoinGraph.sqlJoin?, JoinGraph.sqlJoin?]
    by_cases ha : a = graph.root.id
    · rw [if_pos ha, if_pos ha]
      exact ih
    · rw [if_neg ha, if_neg ha]
      cases hm : graph.node? a with
      | none => exact ih
      | some m =>
        have hm := h m (List.mem_of_find?_eq_some hm)
        simp only [Option.map_some, List.flatMap_cons, conjunctBinds_on hm, ih]

/-- The statement that lists the limited roots of a plan stands apart from the one around it. -/
theorem plan_limitsApart (h : plan env T = .ok p) (hd : p.usesLimitSubquery d = true) :
    ∃ shadow, p.shadowAliases = some shadow ∧ p.LimitsApart d shadow := by
  obtain ⟨n, hp⟩ := plan_over h
  have hsound := (plan_spec h).sound
  have hbound : QuerySound env Subquery.Bound p.graph p.clauses :=
    hsound.mono fun q ⟨_, _, _, _, hq⟩ => hq.bound
  obtain ⟨shadow, hshadow⟩ := QueryPlan.exists_shadow hd
  have hrenames := hp.shadow shadow hshadow
  have hfollows := hp.follows hrenames
  obtain ⟨hsource, hjoins, hfilter⟩ := QueryPlan.limitedKeys_repeats hshadow d
  obtain ⟨hsource', hjoins', hfilter'⟩ := QueryPlan.selectStatement_repeats hd
  refine ⟨shadow, hshadow, ?closed, ?introduced, hrenames, ?source, ?joins, ?joinBinds, ?filter⟩
  case closed =>
    refine QueryPlan.limitedKeys_scoped (hp.inScope_asked hsound fun a => hp.mem_named) ?_ d
    rw [hshadow]
    exact fun a ha => ha.2 shadow hshadow
  case introduced =>
    rw [Select.introduced, hsource, hjoins, sqlJoins_eq]
    exact hp.emits.joinNames shadow
  case source =>
    rw [hsource, hsource', TableUse.rootTable, ← hfollows.get]
    rfl
  case joins =>
    rw [hjoins, hjoins']
    exact sqlJoins_rename hfollows fun m hm e he => ((hp.joins m hm).exprs e he).renamed hfollows
  case joinBinds =>
    intro style
    rw [hjoins, hjoins']
    exact joinBinds_eq hbound.joins shadow p.aliases
  case filter =>
    refine ⟨_, hfilter', ?_, fun style => ?_⟩
    · rw [hfilter]
      exact filter_rename hfollows fun e he => (hp.clauses.filter e he).renamed hfollows
    · rw [hfilter, QueryPlan.conditions, QueryPlan.conditions, binds_filter hbound.clauses.filter,
        binds_filter hbound.clauses.filter]

theorem plan_limitsApart_sample : ∃ p shadow,
    plan Sample.compiler.toSurroundings Sample.limited = .ok p ∧ p.aliases = ["u", "p", "p2"] ∧
      shadow = ["u2", "p3", "p2"] ∧ p.LimitsApart .mysql shadow := by
  obtain ⟨p, hp, hlimit, haliases, hnames⟩ : ∃ p,
      plan Sample.compiler.toSurroundings Sample.limited = .ok p ∧
        p.usesLimitSubquery .mysql = true ∧ p.aliases = ["u", "p", "p2"] ∧
          p.shadowAliases = some ["u2", "p3", "p2"] := by decide +kernel
  obtain ⟨shadow, hshadow, hapart⟩ := plan_limitsApart hp hlimit
  exact ⟨p, shadow, hp, haliases, Option.some_inj.1 (hshadow.symm.trans hnames), hapart⟩

end ObjectQuery
