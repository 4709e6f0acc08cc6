import ObjectQuery.Proofs.Resolve.Predicates
import ObjectQuery.Proofs.Sql.Alignment

/-! # Conditions of statements

The conditions after `WHERE` and `ON` are conjuncts with `AND` between them. Those that the query
demands stand between parentheses, and no other conjunct has alternatives outside of parentheses; so
each of them is a conjunct of what is written.

* `Style.conditionText`: what is written after `WHERE` and `ON`;
* `mem_conjuncts_condition`: the conjuncts of a condition;
* `Conjoined.conjunctive`: what relations demand. -/

namespace ObjectQuery

open Sql

variable {s : Scanner} {env : Surroundings} {style : Style} {names : AliasNames} {ts us : List Term}
  {k : Conjunct} {ks : List Conjunct} {ps qs : List Piece} {e : Expr} {w : List Text}

/-! ## Texts -/

/-- A text between parentheses. -/
def Sql.enclosedText (t : Text) : Text := '(' :: (t ++ [')'])

namespace Sql.Style

/-- The text of terms. -/
def text (style : Style) (ts : List Term) : Text :=
  (Term.partsAll style ts).flatMap Sql.Part.render

/-- The text of a condition that has to hold together with others. -/
def conjunctText (style : Style) (k : Conjunct) : Text :=
  if k.enclosed then enclosedText (style.text k.terms) else style.text k.terms

/-- The text after `WHERE`, or after `ON`. -/
def conditionText (style : Style) (ks : List Conjunct) : Text :=
  (separated " AND " (Conjunct.partsEach style ks)).flatMap Sql.Part.render

/-- The text after `HAVING`. -/
def havingText (style : Style) (having : Option (List Term)) : Text :=
  (separated "" (Term.partsOption style having)).flatMap Sql.Part.render

theorem text_append : style.text (ts ++ us) = style.text ts ++ style.text us := by
  rw [text, partsAll_append, List.flatMap_append, text, text]

theorem text_cons (t : Term) :
    style.text (t :: ts) = (t.parts style).flatMap Sql.Part.render ++ style.text ts := by
  rw [text, Term.partsAll, List.flatMap_append, text]

@[simp] theorem text_raw (t : Text) : style.text (.raw t :: ts) = t ++ style.text ts := by
  rw [text_cons]
  exact congrArg (· ++ style.text ts) (List.append_nil t)

theorem render_enclosedParts (ps : List Sql.Part) :
    (enclosedParts ps).flatMap Sql.Part.render = enclosedText (ps.flatMap Sql.Part.render) := by
  rw [enclosedParts, List.cons_append, List.flatMap_cons, List.flatMap_append]
  rfl

theorem havingText_some : style.havingText (some ts) = enclosedText (style.text ts) :=
  render_enclosedParts _

theorem conditionText_singleton : style.conditionText [k] = style.conjunctText k := by
  obtain ⟨ts, enclosed⟩ := k
  cases enclosed with
  | false => rfl
  | true => exact render_enclosedParts _

theorem conditionText_cons {l : Conjunct} : style.conditionText (k :: l :: ks) =
    style.conjunctText k ++ (" AND ".toList ++ style.conditionText (l :: ks)) := by
  have hsingle : style.conditionText [k] = style.conjunctText k := conditionText_singleton
  obtain ⟨ts, enclosed⟩ := k
  obtain ⟨us, enclosed'⟩ := l
  rw [← hsingle]
  exact List.flatMap_append

end Sql.Style

open Sql.Style

/-! ## Conjuncts -/

/-- The condition that is written is a conjunction when every conjunct is one. -/
theorem conjunctive_condition (h : ∀ k ∈ ks, s.Conjunctive (style.conjunctText k)) :
    s.Conjunctive (style.conditionText ks) := by
  induction ks with
  | nil => exact Scanner.conjunctive_nil
  | cons k ks ih =>
    obtain ⟨hk, hks⟩ := List.forall_mem_cons.1 h
    cases ks with
    | nil =>
      rw [conditionText_singleton]
      exact hk
    | cons l ks =>
      rw [conditionText_cons]
      exact hk.append_and (ih hks)

/-- What is a conjunct of one of the conditions is a conjunct of all of them together. -/
theorem mem_conjuncts_condition (h : ∀ k ∈ ks, s.Conjunctive (style.conjunctText k)) (hk : k ∈ ks)
    (hw : w ∈ s.conjuncts (style.conjunctText k)) : w ∈ s.conjuncts (style.conditionText ks) := by
  induction ks with
  | nil => cases hk
  | cons l ks ih =>
    obtain ⟨hl, hks⟩ := List.forall_mem_cons.1 h
    cases ks with
    | nil =>
      rw [conditionText_singleton, ← List.mem_singleton.1 hk]
      exact hw
    | cons m ks =>
      rw [conditionText_cons, Scanner.conjuncts_and hl.balanced, List.mem_append]
      rcases List.mem_cons.1 hk with rfl | hk
      · exact .inl hw
      · exact .inr (ih hks hk)

theorem demands_condition (h : ∀ k ∈ ks, s.Conjunctive (style.conjunctText k)) (hk : k ∈ ks)
    (hw : w ∈ s.conjuncts (style.conjunctText k)) : s.Demands (style.conditionText ks) w :=
  (conjunctive_condition h).demands (mem_conjuncts_condition h hk hw)

/-- A condition between parentheses. -/
theorem conjunctive_enclosed (h : s.Balanced (style.text ts)) :
    s.Conjunctive (style.conjunctText ⟨ts, true⟩) :=
  h.single_enclosed.conjunctive

theorem demands_enclosed (h : ∀ k ∈ ks, s.Conjunctive (style.conjunctText k))
    (hk : ⟨ts, true⟩ ∈ ks) (hb : s.Balanced (style.text ts)) :
    s.Demands (style.conditionText ks) [enclosedText (style.text ts)] := by
  refine demands_condition h hk ?_
  show _ ∈ s.conjuncts (enclosedText (style.text ts))
  rw [enclosedText, hb.single_enclosed.conjuncts]
  exact List.mem_singleton_self _

theorem demands_having (h : s.Balanced (style.text ts)) :
    s.Demands (style.havingText (some ts)) [enclosedText (style.text ts)] := by
  have hconjuncts := h.single_enclosed.conjuncts
  rw [havingText_some]
  refine h.single_enclosed.conjunctive.demands ?_
  rw [hconjuncts]
  exact List.mem_singleton_self _

/-! ## What the schema demands -/

/-- The words of the test for the rows of a component. -/
def testWords (style : Style) (qualifier : String) (d : Discriminator) : List Text :=
  [style.column qualifier d.column, ['='], style.dialect.literal d.value]

theorem single_operator {op : Text} (h : op ∈ ["=".toList, "!=".toList]) : s.Single op := by
  simp only [List.mem_cons, List.not_mem_nil, or_false] at h
  have hsingle {op : Text} (htame : Tame op) (hblank : ∀ c ∈ op, isBlank c = false)
      (heq : '=' ∈ op) : s.Single op :=
    (Scanner.unbroken_of_forall hblank).single htame.neutral.1 heq (by decide)
  rcases h with rfl | rfl
  · exact hsingle (by decide) (List.forall_mem_singleton.2 rfl) List.mem_cons_self
  · refine hsingle (by decide) (List.forall_mem_cons.2 ⟨rfl, List.forall_mem_singleton.2 rfl⟩) ?_
    exact List.mem_cons_of_mem _ List.mem_cons_self

theorem text_equals {qualifier column : String} {v : Value} :
    style.text [.equals qualifier column v] =
      style.column qualifier column ++ ' ' :: (['='] ++ ' ' :: style.dialect.literal v) := by
  simp [text, Term.partsAll, Term.parts, Sql.Part.render, say]

/-- The test for the rows of a component is a comparison. -/
theorem test_conjunctive (h : env.Plain) {c : Component} {d : Discriminator} {qualifier : String}
    (hc : env.Describes c) (hd : c.inheritance = some d) (hq : IsName qualifier) :
    env.config.scanner.Conjunctive (style.text [.equals qualifier d.column d.value]) ∧
      testWords style qualifier d ∈
        env.config.scanner.conjuncts (style.text [.equals qualifier d.column d.value]) := by
  have hname : IsName d.column := by
    refine h.columns _ ⟨c, hc, ?_⟩
    simp [Component.columnNames, hd]
  have hcolumn : env.config.scanner.Single (style.column qualifier d.column) :=
    style.single_column hq hname
  have hop : env.config.scanner.Single ['='] := single_operator List.mem_cons_self
  have hliteral : env.config.scanner.Single (style.dialect.literal d.value) :=
    style.dialect.single_literal fun text ht hb => h.texts hb c hc d hd text ht
  rw [text_equals, hcolumn.conjuncts_comparison hop hliteral]
  refine ⟨?_, List.mem_singleton_self _⟩
  exact hcolumn.conjunctive.append_blank (hop.conjunctive.append_blank hliteral.conjunctive rfl) rfl

theorem text_canonicalPieces (ps : List Piece) :
    style.text (Piece.termsAll names (canonicalPieces ps)) =
      style.text (Piece.termsAll names ps) := by
  refine canonicalPieces_induction (R := fun ps qs => style.text (Piece.termsAll names qs) =
    style.text (Piece.termsAll names ps)) rfl ?_ ?_ ?_ ps
  · intro p ps qs ih
    rw [Piece.termsAll, Piece.termsAll, text_cons, text_cons, ih]
  · exact fun ps qs ih => ih
  · intro t u ps qs ih
    rw [Piece.termsAll, text_cons] at ih ⊢
    rw [Piece.termsAll, text_cons, ← ih]
    simp [Piece.term, Term.parts, Sql.Part.render]

theorem termsAll_append (ps qs : List Piece) : Piece.termsAll names (ps ++ qs) =
    Piece.termsAll names ps ++ Piece.termsAll names qs := by
  induction ps with
  | nil => rfl
  | cons p ps ih => rw [List.cons_append, Piece.termsAll, ih, Piece.termsAll, List.cons_append]

/-- A comparison of columns. -/
theorem comparison_conjunctive (h : env.Plain) (hn : ∀ name ∈ names, IsName name)
    {left right : AliasId} {leftColumn rightColumn : String} {op : Text}
    (hleft : env.HasColumn leftColumn) (hright : env.HasColumn rightColumn)
    (hop : op ∈ ["=".toList, "!=".toList]) :
    env.config.scanner.Conjunctive (style.text (Piece.termsAll names
      [.column left leftColumn, .text (' ' :: (op ++ [' '])), .column right rightColumn])) := by
  have hcolumn {id : AliasId} {column : String} (hc : env.HasColumn column) :
      env.config.scanner.Single (style.column (names.get id) column) :=
    style.single_column (isName_get hn id) (h.columns _ hc)
  have htext : style.text (Piece.termsAll names [.column left leftColumn,
      .text (' ' :: (op ++ [' '])), .column right rightColumn]) =
        style.column (names.get left) leftColumn ++
          ' ' :: (op ++ ' ' :: style.column (names.get right) rightColumn) := by
    simp [text, Piece.termsAll, Piece.term, Term.partsAll, Term.parts, Sql.Part.render]
  rw [htext]
  exact (hcolumn hleft).conjunctive.append_blank
    ((single_operator hop).conjunctive.append_blank (hcolumn hright).conjunctive rfl) rfl

/-- Columns and plain text between parentheses. -/
theorem group_conjunctive (h : env.Plain) (hn : ∀ name ∈ names, IsName name)
    (hflat : ∀ p ∈ ps, p.Flat)
    (hsound : ∀ p ∈ ps, (∀ t, p ≠ .text t) → p.Sound env (Subquery.Aligned env style)) :
    env.config.scanner.Conjunctive
      (style.text (Piece.termsAll names (.text ['('] :: (ps ++ [.text [')']])))) := by
  have hpieces : ∀ p ∈ ps, p.Sound env (Subquery.Aligned env style) := by
    intro p hp
    have hf := hflat p hp
    cases p with
    | text t => exact Tame.silent hf
    | column => exact hsound _ hp (by simp)
    | output | placeholder | subquery | discriminator => exact hf.elim
  have hwritten : Tame (written ps) := by
    intro c hc
    obtain ⟨p, hp, hc⟩ := List.mem_flatMap.1 hc
    have hf := hflat p hp
    cases p with
    | text t => exact hf c hc
    | column | output | placeholder | subquery | discriminator => cases hc
  have hbalanced : env.config.scanner.Balanced (style.text (Piece.termsAll names ps)) :=
    (aligned_pieces h hn hpieces).2.balanced hwritten.neutral.1
  have htext : style.text (Piece.termsAll names (.text ['('] :: (ps ++ [.text [')']]))) =
      enclosedText (style.text (Piece.termsAll names ps)) := by
    rw [Piece.termsAll, text_cons, termsAll_append, text_append]
    rfl
  rw [htext]
  exact hbalanced.single_enclosed.conjunctive

/-- What relations demand is a conjunction, as it is written. -/
theorem Conjoined.conjunctive (h : env.Plain) (hn : ∀ name ∈ names, IsName name)
    (hps : Conjoined ps)
    (hsound : ∀ p ∈ ps, (∀ t, p ≠ .text t) → p.Sound env (Subquery.Aligned env style)) :
    env.config.scanner.Conjunctive (style.text (Piece.termsAll names ps)) := by
  induction hps with
  | nil => exact Scanner.conjunctive_nil
  | @test id d =>
    obtain ⟨c, hc, hd⟩ := hsound _ (List.mem_singleton_self _) (by simp)
    exact (test_conjunctive h hc hd (isName_get hn id)).1
  | @comparison left right leftColumn rightColumn op hop =>
    have hleft := hsound (.column left leftColumn) (by simp) (by simp)
    have hright := hsound (.column right rightColumn) (by simp) (by simp)
    exact comparison_conjunctive h hn hleft hright hop
  | group hflat =>
    refine group_conjunctive h hn hflat fun p hp => hsound p ?_
    exact List.mem_cons_of_mem _ (List.mem_append_left _ hp)
  | @and ps qs _ _ ihp ihq =>
    have htext : style.text (Piece.termsAll names (ps ++ .text " AND ".toList :: qs)) =
        style.text (Piece.termsAll names ps) ++
          (" AND ".toList ++ style.text (Piece.termsAll names qs)) := by
      rw [termsAll_append, text_append, Piece.termsAll, text_cons]
      rfl
    rw [htext]
    exact (ihp fun p hp => hsound p (List.mem_append_left _ hp)).append_and
      (ihq fun p hp => hsound p (List.mem_append_right _ (List.mem_cons_of_mem _ hp)))

theorem Expr.Conjoined.conjunctive (h : env.Plain) (hn : ∀ name ∈ names, IsName name)
    (hc : e.Conjoined) (he : e.Sound env (Subquery.Aligned env style)) :
    env.config.scanner.Conjunctive (style.text (e.terms names)) := by
  obtain ⟨ps, hps, rfl⟩ := hc
  have htext : style.text ((Expr.plain ps).terms names) = style.text (Piece.termsAll names ps) :=
    text_canonicalPieces ps
  rw [htext]
  refine hps.conjunctive h hn fun p hp hne => he.pieces p ?_
  exact (mem_canonicalPieces_iff hne).2 hp

end ObjectQuery
