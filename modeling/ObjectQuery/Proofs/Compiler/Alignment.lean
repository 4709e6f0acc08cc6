import ObjectQuery.Proofs.Compiler.Placeholders
import ObjectQuery.Proofs.Sql.Alignment

/-! # Compiled statements and their values

Over a schema of plain names, every statement that is compiled passes the scanner, and its `?` are
the places of its values, one after the other: `Compiler.compile_aligned`. -/

namespace ObjectQuery

open Sql

variable {c : Compiler} {T : Text} {p : QueryPlan} {values : List Value} {style : Style}

/-- The statement is written as the given parts, and a scan of its text finds the places at which
the parts bind values: the place of every `?` outside literals belongs to a placeholder of the plan,
and the statement has the value given for that placeholder in the same position. -/
structure Sql.Statement.AlignedWith (s : Scanner) (p : QueryPlan) (values : List Value)
    (ps : List Sql.Part) (st : Statement) : Prop where
  written : st.sql = String.ofList (ps.flatMap Sql.Part.render)
  valid : s.validate st.sql.toList = .ok ()
  count : (s.questions st.sql.toList).length = st.params.length
  bound : ∀ i off : Nat, (s.questions st.sql.toList)[i]? = some off →
    ∃ (pre : List Sql.Part) (n : Nat) (post : List Sql.Part) (v : Value), ps = pre ++ .bind n :: post ∧
      off = (pre.flatMap Sql.Part.render).length ∧ n ∈ p.ordinals ∧ values[n]? = some v ∧
      st.params[i]? = some v

/-- Aligned parts that bind placeholders of the plan only. -/
theorem Aligned.statement {s : Scanner} {ps : List Sql.Part} (h : Aligned s ps)
    (hbinds : ∀ n ∈ binds ps, n ∈ p.ordinals) (hvalues : ∀ n ∈ p.ordinals, n < values.length) :
    (Statement.ofParts values ps).AlignedWith s p values ps := by
  have hsql : (Statement.ofParts values ps).sql.toList = ps.flatMap Sql.Part.render :=
    String.toList_ofList
  have hparams : (Statement.ofParts values ps).params = (binds ps).map (values.getD · .null) := rfl
  refine ⟨rfl, ?_, ?_, fun i off hoff => ?_⟩
  · rw [hsql, Scanner.validate_eq_ok]
    exact h.balanced
  · rw [hsql, hparams, List.length_map]
    exact length_questions h.silent
  · rw [hsql] at hoff
    obtain ⟨pre, n, post, hps, hpos, hi⟩ := exists_bind_of_question h.silent hoff
    have hget : (binds ps)[i]? = some n := by
      rw [hps, hi, binds_append, binds_bind]
      simp
    have hn := hbinds n (List.mem_of_getElem? hget)
    have hlt := hvalues n hn
    refine ⟨pre, n, post, values[n], hps, hpos, hn, List.getElem?_eq_getElem hlt, ?_⟩
    rw [hparams, List.getElem?_map, hget, Option.map_some, List.getD_eq_getElem?_getD,
      List.getElem?_eq_getElem hlt, Option.getD_some]

theorem PlanFrom.withinAligned {env : Surroundings} (h : PlanFrom env T p) (hplain : env.Plain)
    (style : Style) : PlanWithin env (Subquery.Aligned env style) p.ordinals p := by
  refine h.within fun q hq => ?_
  obtain ⟨_, _, _, _, hq⟩ := hq
  exact hq.aligned hplain

/-- Text and values of every compiled statement are aligned, when the names of the schema and of the
column of counts are plain. -/
theorem Compiler.compile_aligned (hplain : c.toSurroundings.Plain)
    (halias : IsName c.config.countAlias) (T : Text) (values : List Value) :
    (∀ r, c.compile T values = .ok r → ∃ p, plan c.toSurroundings T = .ok p ∧
      r.toStatement.AlignedWith c.config.scanner p values
        ((p.selectStatement c.dialect).parts c.style)) ∧
    ∀ r, c.compileCount T values = .ok r → ∃ p, plan c.toSurroundings T = .ok p ∧
      r.toStatement.AlignedWith c.config.scanner p values
        ((p.countStatement c.config.countAlias).parts c.style) := by
  have hlt {p : QueryPlan} (hp : PlanFrom c.toSurroundings T p)
      (hv : p.placeholders = values.length) : ∀ n ∈ p.ordinals, n < values.length :=
    fun n hn => hv ▸ hp.lt_placeholders hn
  constructor
  · intro r hr
    obtain ⟨p, hp, hv, hs⟩ := compile_spec hr
    have hfrom := plan_spec hp
    refine ⟨p, hp, ?_⟩
    rw [hs]
    exact ((rendering_aligned hplain c.style p.ordinals).selectStatement
      (hfrom.withinAligned hplain c.style) c.dialect).statement
      (fun n hn => hfrom.mem_binds_selectStatement hn) (hlt hfrom hv)
  · intro r hr
    obtain ⟨p, hp, hv, hs⟩ := compileCount_spec hr
    have hfrom := plan_spec hp
    refine ⟨p, hp, ?_⟩
    rw [hs]
    exact ((rendering_aligned hplain c.style p.ordinals).countStatement
      (hfrom.withinAligned hplain c.style) halias).statement
      (fun n hn => hfrom.mem_binds_countStatement hn) (hlt hfrom hv)

namespace Sample

theorem describes {c : Component} (h : compiler.toSurroundings.Describes c) :
    c = user ∨ c = phone := by
  obtain ⟨name, h⟩ := h
  simp only [compiler, provider] at h
  split at h
  · cases h
    exact .inl rfl
  · split at h
    · cases h
      exact .inr rfl
    · cases h

theorem plain : compiler.toSurroundings.Plain where
  tables := by
    intro c hc
    rcases describes hc with rfl | rfl <;> decide
  columns := by
    rintro name ⟨c, hc, hname⟩
    have hall : ∀ name ∈ user.columnNames ++ phone.columnNames, IsName name := by decide +kernel
    refine hall name (List.mem_append.2 ?_)
    rcases describes hc with rfl | rfl
    · exact .inl hname
    · exact .inr hname
  texts := nofun

end Sample

theorem Compiler.compile_aligned_sample : ∃ r p, Sample.compiler.compile Sample.text Sample.params = .ok r ∧
    r.toStatement.AlignedWith Sample.compiler.config.scanner p Sample.params
      ((p.selectStatement .mysql).parts Sample.compiler.style) := by
  obtain ⟨p, hp, hcount, -⟩ := Sample.plan_text
  have hr := compile_of_plan hp hcount
  have halias : IsName Sample.compiler.config.countAlias := by decide
  obtain ⟨q, -, h⟩ := (compile_aligned Sample.plain halias Sample.text Sample.params).1 _ hr
  exact ⟨_, q, hr, h⟩

end ObjectQuery
