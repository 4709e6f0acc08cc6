import ObjectQuery.Compiler
import ObjectQuery.Proofs.Resolve.Query
import ObjectQuery.Proofs.Sql.Statements

/-! # Placeholders of compiled queries

A plan has every placeholder of its text once, and the statements made of it bind no other
(`plan_conserves`). When all joins are written and the limit stays outside, the statement binds them
each once, and in the order of the text if the clauses are written in the order of SQL
(`Compiler.compile_params`). -/

namespace ObjectQuery

open Sql

variable {env : Surroundings} {T : Text} {p : QueryPlan} {style : Style} {d : Dialect}
  {values : List Value}

/-! ## What statements bind -/

/-- Parts that bind placeholders with the given ordinals only. -/
theorem rendering_binds (env : Surroundings) (style : Style) (ks : List Nat) :
    Rendering env style Subquery.Bound ks (fun _ => True) fun ps => ∀ n ∈ binds ps, n ∈ ks where
  nil := nofun
  append := by
    intro ps qs hp hq n hn
    rw [binds_append] at hn
    rcases List.mem_append.1 hn with hn | hn
    · exact hp n hn
    · exact hq n hn
  enclosed := by
    intro a b ps _ _ hp n hn
    simp only [List.cons_append, binds_text, binds_append, binds_nil, List.append_nil] at hn
    exact hp n hn
  text _ := nofun
  identifier _ := nofun
  column _ _ := nofun
  name _ := trivial
  append_name _ _ := trivial
  physical _ := trivial
  table_name _ := trivial
  expr := by
    intro names e _ he n hn
    rw [← termBinds, binds_terms he.sound] at hn
    exact he.mem n hn
  test _ _ _ := nofun

theorem PlanFrom.withinBound (h : PlanFrom env T p) :
    PlanWithin env Subquery.Bound p.ordinals p := by
  refine h.within fun q hq => ?_
  obtain ⟨_, _, _, _, hq⟩ := hq
  exact hq.bound

theorem PlanFrom.mem_binds_selectStatement {n : Nat} (h : PlanFrom env T p)
    (hn : n ∈ binds ((p.selectStatement d).parts style)) : n ∈ p.ordinals :=
  (rendering_binds env style p.ordinals).selectStatement h.withinBound d n hn

theorem PlanFrom.mem_binds_countStatement {n : Nat} {countAlias : String} (h : PlanFrom env T p)
    (hn : n ∈ binds ((p.countStatement countAlias).parts style)) : n ∈ p.ordinals :=
  (rendering_binds env style p.ordinals).countStatement h.withinBound trivial n hn

theorem QueryPlan.checkParameters_eq_ok :
    p.checkParameters values = .ok () ↔ p.placeholders = values.length := by
  rw [checkParameters]
  split
  · rename_i h
    simp [h]
  · rename_i h
    simp [h]

theorem PlanFrom.lt_placeholders {n : Nat} (h : PlanFrom env T p) (hn : n ∈ p.ordinals) :
    n < p.placeholders :=
  List.mem_range.1 (h.ordinals_perm.mem_iff.1 hn)

/-! ## A schema of users and their phones -/

namespace Sample

def user : Component where
  name := "User"
  table := "users"
  columns := [⟨"id", none, "integer", true⟩, ⟨"user_name", some "name", "string", false⟩]
  relations := [⟨"phones", .oneToMany, "Phone", "id", "user_id", none, some "number", none, false,
    false⟩]
  inheritance := none
  orderBy := none

def phone : Component where
  name := "Phone"
  table := "phones"
  columns := [⟨"id", none, "integer", true⟩, ⟨"user_id", none, "integer", false⟩,
    ⟨"number", none, "string", false⟩, ⟨"kind", none, "string", false⟩]
  relations := []
  inheritance := some ⟨"kind", .string "phone?"⟩
  orderBy := none

/-- Users and phones; there is nothing else. -/
def provider : Provider := fun name =>
  if name = "User" then .ok user
  else if name = "Phone" then .ok phone
  else .error (.unknownComponent name)

def compiler : Compiler := ⟨⟨provider, { quoteIdentifiers := true }⟩, .mysql⟩

/-- Three values are bound at all levels of nesting; the `?` between quotes takes none. -/
def text : Text :=
  ["SELECT", "u.name", "FROM", "User", "u", "LEFT", "JOIN", "u.phones", "p", "WITH", "p.number = ?",
    "WHERE", "u.name <> '?'", "AND", "u.id IN (", "SELECT", "q.user_id", "FROM", "Phone", "q", "WHERE",
    "q.number LIKE ?)", "AND", "u.id > ?"].flatMap fun word => word.toList ++ [' ']

def params : List Value := [.string "5", .string "6%", .int 7]

/-- Nothing of the plan refers to the phones that are joined. -/
theorem plan_text : ∃ p, plan compiler.toSurroundings text = .ok p ∧
    p.placeholders = params.length ∧ p.usesLimitSubquery compiler.dialect = false ∧
    p.graph.aliases = [0, 1] ∧ p.graph.retained ∅ = AliasSet.ofList [0] := by decide +kernel

end Sample

/-- Planning conserves placeholders: every placeholder of the text outside literals has one place in
the plan, made at the `?` with its ordinal, and once a value is given for each, no statement of the
plan asks for a value that is missing. -/
theorem plan_conserves (h : plan env T = .ok p) :
    PlanFrom env T p ∧ p.placeholders = (env.config.scanner.questions T).length ∧
      p.ordinals.Perm (List.range p.placeholders) ∧
      ∀ values, p.checkParameters values = .ok () → ∀ style n,
        (∀ d, n ∈ binds ((p.selectStatement d).parts style) → n < values.length) ∧
          ∀ countAlias, n ∈ binds ((p.countStatement countAlias).parts style) →
            n < values.length := by
  have hp := plan_spec h
  refine ⟨hp, hp.placeholders, hp.ordinals_perm, fun values hv style n => ?_⟩
  rw [← QueryPlan.checkParameters_eq_ok.1 hv]
  exact ⟨fun d hn => hp.lt_placeholders (hp.mem_binds_selectStatement hn),
    fun countAlias hn => hp.lt_placeholders (hp.mem_binds_countStatement hn)⟩

theorem plan_conserves_sample : ∃ p, plan Sample.compiler.toSurroundings Sample.text = .ok p ∧
    p.ordinals.Perm [0, 1, 2] ∧ p.checkParameters Sample.params = .ok () ∧
    ∀ style d, ∀ n ∈ binds ((p.selectStatement d).parts style), n < 3 := by
  obtain ⟨p, hp, hcount, -⟩ := Sample.plan_text
  obtain ⟨-, -, hperm, hbinds⟩ := plan_conserves hp
  have hvalues : p.checkParameters Sample.params = .ok () :=
    QueryPlan.checkParameters_eq_ok.2 hcount
  rw [hcount] at hperm
  exact ⟨p, hp, hperm, hvalues, fun style d n => (hbinds _ hvalues style n).1 d⟩

/-! ## Compiled statements -/

theorem Compiler.boundPlan_eq_ok {c : Compiler} : c.boundPlan T values = .ok p ↔
    plan c.toSurroundings T = .ok p ∧ p.placeholders = values.length := by
  simp only [boundPlan, Except.bind_eq_ok]
  constructor
  · rintro ⟨q, hq, ⟨⟩, hv, ⟨⟩⟩
    exact ⟨hq, QueryPlan.checkParameters_eq_ok.1 hv⟩
  · rintro ⟨hp, hv⟩
    exact ⟨p, hp, (), QueryPlan.checkParameters_eq_ok.2 hv, rfl⟩

theorem Compiler.compile_of_plan {c : Compiler} (hp : plan c.toSurroundings T = .ok p)
    (hv : p.placeholders = values.length) :
    c.compile T values = .ok ⟨(p.selectStatement c.dialect).statement c.style values,
      .ofQueryPlan p, c.config.defaultHydration⟩ := by
  rw [compile, boundPlan_eq_ok.2 ⟨hp, hv⟩]
  rfl

theorem Compiler.compile_spec {c : Compiler} {r : CompiledQuery} (h : c.compile T values = .ok r) :
    ∃ p, plan c.toSurroundings T = .ok p ∧ p.placeholders = values.length ∧
      r.toStatement = (p.selectStatement c.dialect).statement c.style values := by
  obtain ⟨p, hp, hr⟩ := Except.bind_eq_ok.1 h
  cases hr
  obtain ⟨hp, hv⟩ := boundPlan_eq_ok.1 hp
  exact ⟨p, hp, hv, rfl⟩

theorem Compiler.compileCount_spec {c : Compiler} {r : CompiledCount}
    (h : c.compileCount T values = .ok r) :
    ∃ p, plan c.toSurroundings T = .ok p ∧ p.placeholders = values.length ∧
      r.toStatement = (p.countStatement c.config.countAlias).statement c.style values := by
  obtain ⟨p, hp, hr⟩ := Except.bind_eq_ok.1 h
  cases hr
  obtain ⟨hp, hv⟩ := boundPlan_eq_ok.1 hp
  exact ⟨p, hp, hv, rfl⟩

theorem Sql.Select.statement_params (s : Select) :
    (s.statement style values).params = (binds (s.parts style)).map (values.getD · .null) := rfl

/-- The values at all positions are the list itself. -/
theorem map_getD_range {α : Type} (xs : List α) (x : α) :
    (List.range xs.length).map (xs.getD · x) = xs := by
  refine List.ext_getElem (by simp) fun i hi hi' => ?_
  simp [hi']

/-- When all joins are written and the limit stays outside, the statement of a plan binds the
placeholders of the plan in order. -/
theorem PlanFrom.binds_selectStatement (h : PlanFrom env T p)
    (hprune : env.config.pruneJoins = false) (hlimit : p.usesLimitSubquery d = false) :
    binds ((p.selectStatement d).parts style) = p.ordinals := by
  obtain ⟨q, -, hq⟩ := h.query
  have hsound : QuerySound env Subquery.Bound p.graph p.clauses := by
    refine h.sound.mono fun q hq => ?_
    obtain ⟨_, _, _, _, hq⟩ := hq
    exact hq.bound
  simp only [QueryPlan.selectStatement, hlimit, QueryPlan.toSelect, h.emitted hprune]
  exact hq.binds hsound

/-- A compiled query whose joins are all written and whose limit stays outside takes the given
values, each once, and in the given order if at every level of nesting the clauses of the text come
in the order of SQL. -/
theorem Compiler.compile_params {c : Compiler} {r : CompiledQuery}
    (hr : c.compile T values = .ok r) (hprune : c.config.pruneJoins = false)
    (hlimit : ∀ p, plan c.toSurroundings T = .ok p → p.usesLimitSubquery c.dialect = false) :
    r.params.Perm values ∧ (c.config.scanner.AllInOrder T → r.params = values) := by
  obtain ⟨p, hp, hv, hs⟩ := compile_spec hr
  have hfrom := plan_spec hp
  have hparams : r.params = p.ordinals.map (values.getD · .null) := by
    rw [hs, Select.statement_params, hfrom.binds_selectStatement hprune (hlimit p hp)]
  have hrange := map_getD_range values Value.null
  rw [← hv] at hrange
  constructor
  · have := hfrom.ordinals_perm.map (values.getD · Value.null)
    rwa [← hparams, hrange] at this
  · intro ho
    rw [hparams, hfrom.ordinals_inOrder ho, hrange]

theorem Compiler.compile_params_sample : ∃ r, Sample.compiler.compile Sample.text Sample.params = .ok r ∧
    r.params = Sample.params := by
  obtain ⟨p, hp, hcount, hlimit, -⟩ := Sample.plan_text
  have hr := compile_of_plan hp hcount
  refine ⟨_, hr, (compile_params hr rfl fun q hq => ?_).2 (by decide +kernel)⟩
  cases Except.ok.inj (hp.symm.trans hq)
  exact hlimit

end ObjectQuery
