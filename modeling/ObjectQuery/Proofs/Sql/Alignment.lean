import ObjectQuery.Proofs.Sql.Literals
import ObjectQuery.Proofs.Sql.Statements

/-! # Statements and their values stay aligned

The text pieces of a statement hold no placeholder outside literals and are balanced taken together
(`Aligned`), so the `?` of the statement are the places where it binds values, one after the other.

* `Aligned.question`: what stands at the `?` of a statement;
* `rendering_aligned`: whatever statements are made of is aligned;
* `SubqueryFrom.aligned`: nested statements are. -/

namespace ObjectQuery

open Sql

/-- The parts read like their text pieces, which hold no placeholder outside literals. -/
structure Aligned (s : Scanner) (ps : List Sql.Part) : Prop where
  silent : ∀ t, .text t ∈ ps → s.Silent t
  balanced : s.Balanced (ps.flatMap Sql.Part.render)

variable {s : Scanner} {ps qs : List Sql.Part} {t : Text} {env : Surroundings} {style : Style}

/-! ## Placeholders of a statement -/

theorem questions_bind (n : Nat) (ps : List Sql.Part) :
    s.questions ((Sql.Part.bind n :: ps).flatMap Sql.Part.render) =
      0 :: (s.questions (ps.flatMap Sql.Part.render)).map (1 + ·) := by
  rw [List.flatMap_cons, Scanner.questions_append rfl]; rfl

theorem questions_text (h : s.Silent t) (ps : List Sql.Part) :
    s.questions ((Sql.Part.text t :: ps).flatMap Sql.Part.render) =
      (s.questions (ps.flatMap Sql.Part.render)).map (t.length + ·) := by
  rw [List.flatMap_cons, Sql.Part.render, Scanner.questions_append h.1,
    List.eq_nil_of_length_eq_zero h.2, List.nil_append]

/-- The `?` with the ordinal `i` is the place of the `i`-th value that the parts bind. -/
theorem exists_bind_of_question {i off : Nat} (h : ∀ t, .text t ∈ ps → s.Silent t)
    (hq : (s.questions (ps.flatMap Sql.Part.render))[i]? = some off) :
    ∃ pre n post, ps = pre ++ .bind n :: post ∧ off = (pre.flatMap Sql.Part.render).length ∧
      i = (binds pre).length := by
  induction ps generalizing i off with
  | nil => cases hq
  | cons p ps ih =>
    have hrest : ∀ t, .text t ∈ ps → s.Silent t := fun t ht => h t (List.mem_cons_of_mem _ ht)
    cases p with
    | text t =>
      rw [questions_text (h t List.mem_cons_self), List.getElem?_map,
        Option.map_eq_some_iff] at hq
      obtain ⟨off, hoff, rfl⟩ := hq
      obtain ⟨pre, n, post, rfl, rfl, rfl⟩ := ih hrest hoff
      exact ⟨.text t :: pre, n, post, rfl, List.length_append.symm, rfl⟩
    | bind n =>
      rw [questions_bind] at hq
      cases i with
      | zero =>
        cases hq
        exact ⟨[], n, ps, rfl, rfl, rfl⟩
      | succ i =>
        rw [List.getElem?_cons_succ, List.getElem?_map, Option.map_eq_some_iff] at hq
        obtain ⟨off, hoff, rfl⟩ := hq
        obtain ⟨pre, m, post, rfl, rfl, rfl⟩ := ih hrest hoff
        exact ⟨.bind n :: pre, m, post, rfl, Nat.add_comm 1 _, rfl⟩

theorem length_questions (h : ∀ t, .text t ∈ ps → s.Silent t) :
    (s.questions (ps.flatMap Sql.Part.render)).length = (binds ps).length := by
  induction ps with
  | nil => rfl
  | cons p ps ih =>
    have ih := ih fun t ht => h t (List.mem_cons_of_mem _ ht)
    cases p with
    | text t =>
      rw [questions_text (h t List.mem_cons_self), List.length_map, ih]; rfl
    | bind n =>
      rw [questions_bind, List.length_cons, List.length_map, ih]; rfl

/-! ## Parts of a statement -/

namespace Aligned

theorem nil : Aligned s [] := ⟨nofun, rfl⟩

theorem append (hp : Aligned s ps) (hq : Aligned s qs) : Aligned s (ps ++ qs) := by
  refine ⟨fun t ht => ?_, ?_⟩
  · rcases List.mem_append.1 ht with ht | ht
    · exact hp.silent t ht
    · exact hq.silent t ht
  · rw [List.flatMap_append]
    exact hp.balanced.append hq.balanced

theorem text (h : s.Neutral t) : Aligned s [.text t] := by
  refine ⟨fun u hu => ?_, ?_⟩
  · cases List.mem_singleton.1 hu
    exact h.silent
  · simpa [Sql.Part.render] using h.1

theorem enclosed {a b : Text} (ha : Tame a) (hb : Tame b) (h : Aligned s ps) :
    Aligned s (.text (a ++ ['(']) :: ps ++ [.text (')' :: b)]) := by
  refine ⟨fun t ht => ?_, ?_⟩
  · simp only [List.cons_append, List.mem_cons, List.mem_append, List.not_mem_nil, or_false,
      Sql.Part.text.injEq] at ht
    rcases ht with rfl | ht | rfl
    · exact ha.silent.append silent_open
    · exact h.silent t ht
    · exact silent_close.append hb.silent
  · have hgroup := (ha.neutral.1.append h.balanced.enclosed).append hb.neutral.1
    simpa [Sql.Part.render] using hgroup

end Aligned

/-! ## Schemas -/

/-- Tables and columns are named with letters, digits and underscores, and where a backslash escapes
no text that tells components apart holds one. -/
structure Surroundings.Plain (env : Surroundings) : Prop where
  tables : ∀ c, env.Describes c → IsName c.table
  columns : ∀ name, env.HasColumn name → IsName name
  texts : env.config.backslashEscapes = true → ∀ c, env.Describes c → ∀ d, c.inheritance = some d →
    ∀ text, d.value = .string text → '\\' ∉ text.toList

/-- The statement of a subquery is aligned. -/
def Subquery.Aligned (env : Surroundings) (style : Style) (q : Subquery) : Prop :=
  ∀ names, (∀ name ∈ names, IsName name) →
    ObjectQuery.Aligned env.config.scanner ((q.toSelect names).parts style)

theorem aligned_test (h : env.Plain) {c : Component} {d : Discriminator} {qualifier : String}
    (hc : env.Describes c) (hd : c.inheritance = some d) (hq : IsName qualifier) :
    Aligned env.config.scanner (Term.parts style (.equals qualifier d.column d.value)) := by
  have hcolumn : IsName d.column := by
    refine h.columns _ ⟨c, hc, ?_⟩
    simp [Component.columnNames, hd]
  have hequals : Tame " = ".toList := by decide
  refine (Aligned.text (style.neutral_column hq hcolumn)).append
    ((Aligned.text hequals.neutral).append (.text ?_))
  exact style.dialect.neutral_literal fun text ht hb => h.texts hb c hc d hd text ht

theorem isName_get {names : AliasNames} (hn : ∀ name ∈ names, IsName name) (id : AliasId) :
    IsName (names.get id) := by
  rcases names.get_mem_or id with hmem | hempty
  · exact hn _ hmem
  · rw [hempty]
    exact nofun

/-- The parts of a piece are silent, and read like what the piece writes itself. -/
theorem aligned_piece (h : env.Plain) {names : AliasNames} (hn : ∀ name ∈ names, IsName name)
    {p : Piece} (hp : p.Sound env (Subquery.Aligned env style)) :
    (∀ t, .text t ∈ (p.term names).parts style → env.config.scanner.Silent t) ∧
      env.config.scanner.ReadsLike (((p.term names).parts style).flatMap Sql.Part.render)
        p.written := by
  have haligned {ps : List Sql.Part} (ha : Aligned env.config.scanner ps) :
      (∀ t, .text t ∈ ps → env.config.scanner.Silent t) ∧
        env.config.scanner.ReadsLike (ps.flatMap Sql.Part.render) [] :=
    ⟨ha.silent, ha.balanced.readsLike_nil⟩
  cases p with
  | text t =>
    refine ⟨fun u hu => ?_, ?_⟩
    · cases List.mem_singleton.1 hu
      exact hp
    · show env.config.scanner.ReadsLike (t ++ []) t
      rw [List.append_nil]
      exact .refl _ t
  | column id name =>
    exact haligned (.text (style.neutral_column (isName_get hn id) (h.columns _ hp)))
  | output owner ordinal =>
    exact haligned (.text (style.neutral_identifier
      (((isName_get hn owner).append isName_underscores).append (isName_toString ordinal))))
  | placeholder n => exact ⟨by simp [Piece.term, Term.parts], fun _ => rfl⟩
  | subquery q => exact haligned (hp names hn)
  | discriminator id d =>
    obtain ⟨c, hc, hd⟩ := hp
    exact haligned (aligned_test h hc hd (isName_get hn id))

theorem run_render (h : ∀ t, .text t ∈ ps → s.Silent t) :
    Quoting.run s .outside (ps.flatMap Sql.Part.render) = .outside := by
  induction ps with
  | nil => rfl
  | cons p ps ih =>
    rw [List.flatMap_cons, Quoting.run_append]
    have ih := ih fun t ht => h t (List.mem_cons_of_mem _ ht)
    cases p with
    | text t => rw [Sql.Part.render, (h t List.mem_cons_self).1, ih]
    | bind n => exact ih

/-- Pieces one after the other: they are balanced when what they write themselves is. -/
theorem aligned_pieces (h : env.Plain) {names : AliasNames} (hn : ∀ name ∈ names, IsName name)
    {ps : List Piece} (hp : ∀ p ∈ ps, p.Sound env (Subquery.Aligned env style)) :
    (∀ t, .text t ∈ Term.partsAll style (Piece.termsAll names ps) →
        env.config.scanner.Silent t) ∧
      env.config.scanner.ReadsLike
        ((Term.partsAll style (Piece.termsAll names ps)).flatMap Sql.Part.render) (written ps) := by
  induction ps with
  | nil => exact ⟨nofun, .refl _ _⟩
  | cons p ps ih =>
    obtain ⟨hfirst, hrest⟩ := List.forall_mem_cons.1 hp
    obtain ⟨hs, hr⟩ := aligned_piece h hn hfirst
    obtain ⟨hs', hr'⟩ := ih hrest
    rw [Piece.termsAll, Term.partsAll]
    refine ⟨fun t ht => (List.mem_append.1 ht).elim (hs t) (hs' t), ?_⟩
    rw [List.flatMap_append, written, List.flatMap_cons]
    exact hr.append hr' (run_render hs)

/-- Whatever statements are made of is aligned. -/
theorem rendering_aligned (h : env.Plain) (style : Style) (ks : List Nat) :
    Rendering env style (Subquery.Aligned env style) ks IsName (Aligned env.config.scanner) where
  nil := .nil
  append := .append
  enclosed := .enclosed
  text ht := .text (ht _)
  identifier hn := .text (style.neutral_identifier hn)
  column hq hn := .text (style.neutral_column hq hn)
  name hn := hn
  append_name := .append
  physical := h.columns _
  table_name := h.tables _
  expr := by
    intro names e hn he
    obtain ⟨ps, aggregate⟩ := e
    obtain ⟨hs, hr⟩ := aligned_pieces h hn he.sound.pieces
    exact ⟨hs, hr.balanced he.sound.balanced⟩
  test := aligned_test h

/-- A subquery of the text is aligned. -/
theorem SubqueryFrom.aligned (h : env.Plain) {levels : Nat} {T : Text} {param off : Nat}
    {inner : Text} {q : Subquery} (hq : SubqueryFrom env levels T param off inner q) :
    q.Aligned env style := by
  induction levels generalizing T param off inner q with
  | zero => cases hq
  | succ levels ih =>
    have hwithin := hq.within (Q := Subquery.Aligned env style) fun r ⟨_, _, _, _, hr⟩ => ih hr
    have hrendering := rendering_aligned h style (q.clauses.ordinals q.graph.ordinals)
    intro names hn
    obtain ⟨graph, clauses, emitted⟩ := q
    have hunnamed : false = true → ∀ f ∈ clauses.select.filterMap (·.field?), IsName f.output :=
      fun hf => by cases hf
    exact (hrendering.toSelect hn hwithin hunnamed).parts hrendering.toCompositional

theorem SubqueryFrom.withinAligned (h : env.Plain) {levels : Nat} {T : Text} {param off : Nat}
    {inner : Text} {q : Subquery} (hq : SubqueryFrom env levels T param off inner q) :
    QueryWithin env (Subquery.Aligned env style) (q.clauses.ordinals q.graph.ordinals) q.graph
      q.clauses := by
  cases levels with
  | zero => cases hq
  | succ levels => exact hq.within fun r ⟨_, _, _, _, hr⟩ => hr.aligned h

end ObjectQuery
