import ObjectQuery.Proofs.Plan.Ordinals
import ObjectQuery.Sql.Lowering

/-! # Sound expressions

What can be said of an expression whatever text it comes from: its text pieces hold no placeholder
outside literals, they are balanced taken together, and its columns and tests belong to the schema
(`Expr.Sound`). What holds of its subqueries is a parameter.

* `ExprFrom.sound`, `Expr.Generated.sound`: expressions of the text and of the schema are sound;
* `Expr.Sound.inlined`: so are expressions put in the place of references to the select list. -/

namespace ObjectQuery

variable {env : Surroundings} {Q Q' : Subquery → Prop} {R : Origin} {T : Text} {ps qs : List Piece}
  {e : Expr}

/-- The text that a piece writes itself. -/
def Piece.written : Piece → Text
  | .text t => t
  | .column .. | .output .. | .placeholder _ | .subquery _ | .discriminator .. => []

/-- The text that pieces write themselves. -/
def written (ps : List Piece) : Text := ps.flatMap Piece.written

/-- What holds of a piece of an expression; `Q` is what holds of subqueries. -/
def Piece.Sound (env : Surroundings) (Q : Subquery → Prop) : Piece → Prop
  | .text t => env.config.scanner.Silent t
  | .column _ name => env.HasColumn name
  | .subquery q => Q q
  | .discriminator _ test => ∃ c, env.Describes c ∧ c.inheritance = some test
  | .output .. | .placeholder _ => True

/-- What holds of the pieces of an expression. -/
structure PiecesSound (env : Surroundings) (Q : Subquery → Prop) (ps : List Piece) : Prop where
  pieces : ∀ p ∈ ps, p.Sound env Q
  balanced : env.config.scanner.Balanced (written ps)

/-- What holds of an expression. -/
def Expr.Sound (env : Surroundings) (Q : Subquery → Prop) (e : Expr) : Prop :=
  PiecesSound env Q e.pieces

theorem Piece.Sound.mono {p : Piece} (hQ : ∀ q, Q q → Q' q) (h : p.Sound env Q) :
    p.Sound env Q' := by
  cases p with
  | subquery q => exact hQ q h
  | text | column | discriminator => exact h
  | output | placeholder => trivial

theorem Expr.Sound.mono (hQ : ∀ q, Q q → Q' q) (h : e.Sound env Q) : e.Sound env Q' :=
  ⟨fun p hp => (h.pieces p hp).mono hQ, h.balanced⟩

theorem silent_written (h : ∀ p ∈ ps, p.Sound env Q) : env.config.scanner.Silent (written ps) := by
  induction ps with
  | nil => exact .nil
  | cons p ps ih =>
    obtain ⟨hp, hps⟩ := List.forall_mem_cons.1 h
    refine Scanner.Silent.append ?_ (ih hps)
    cases p with
    | text t => exact hp
    | column | output | placeholder | subquery | discriminator => exact .nil

/-! ## Canonical form -/

theorem written_canonicalPieces (ps : List Piece) : written (canonicalPieces ps) = written ps := by
  refine canonicalPieces_induction (R := fun ps qs => written qs = written ps) rfl ?_ ?_ ?_ ps
  · intro p ps qs ih
    simp only [written, List.flatMap_cons] at ih ⊢
    rw [ih]
  · exact fun ps qs ih => ih
  · intro t u ps qs ih
    simp only [written, List.flatMap_cons, Piece.written] at ih ⊢
    rw [← ih, List.append_assoc]

theorem sound_canonicalPieces (h : ∀ p ∈ ps, p.Sound env Q) :
    ∀ p ∈ canonicalPieces ps, p.Sound env Q := by
  refine canonicalPieces_induction (R := fun ps qs => (∀ p ∈ ps, p.Sound env Q) →
    ∀ p ∈ qs, p.Sound env Q) id ?_ ?_ ?_ ps h
  · intro p ps qs ih h
    rw [List.forall_mem_cons] at h ⊢
    exact ⟨h.1, ih h.2⟩
  · intro ps qs ih h
    exact ih (List.forall_mem_cons.1 h).2
  · intro t u ps qs ih h
    obtain ⟨ht, hps⟩ := List.forall_mem_cons.1 h
    obtain ⟨hu, hqs⟩ := List.forall_mem_cons.1 (ih hps)
    exact List.forall_mem_cons.2 ⟨Scanner.Silent.append ht hu, hqs⟩

theorem PiecesSound.canonical (h : PiecesSound env Q ps) :
    PiecesSound env Q (canonicalPieces ps) :=
  ⟨sound_canonicalPieces h.pieces, by rw [written_canonicalPieces]; exact h.balanced⟩

/-! ## Expressions of the schema -/

theorem silent_open {s : Scanner} : s.Silent ['('] := ⟨rfl, rfl⟩

theorem silent_close {s : Scanner} : s.Silent [')'] := ⟨rfl, rfl⟩

theorem Generated.sound (h : Generated env ps) : PiecesSound env Q ps := by
  induction h with
  | nil => exact ⟨nofun, rfl⟩
  | text ht _ ih =>
    exact ⟨List.forall_mem_cons.2 ⟨ht.silent, ih.pieces⟩,
      ht.neutral.1.append ih.balanced⟩
  | column hc _ ih => exact ⟨List.forall_mem_cons.2 ⟨hc, ih.pieces⟩, ih.balanced⟩
  | test hc hd _ ih => exact ⟨List.forall_mem_cons.2 ⟨⟨_, hc, hd⟩, ih.pieces⟩, ih.balanced⟩
  | @group ps qs _ _ ihp ihq =>
    constructor
    · rw [List.cons_append]
      refine List.forall_mem_cons.2 ⟨silent_open, List.forall_mem_append.2
        ⟨ihp.pieces, List.forall_mem_cons.2 ⟨silent_close, ihq.pieces⟩⟩⟩
    · have : written (.text ['('] :: ps ++ .text [')'] :: qs) =
          ('(' :: (written ps ++ [')'])) ++ written qs := by
        simp [written, Piece.written]
      rw [this]
      exact ihp.balanced.enclosed.append ihq.balanced

theorem Expr.Generated.sound (h : e.Generated env) : e.Sound env Q := by
  obtain ⟨ps, hps, he⟩ := h
  rw [Expr.Sound, he]
  exact hps.sound.canonical

/-! ## Expressions of the text -/

/-- The subquery comes from some text. -/
def Origin.Any (R : Origin) (q : Subquery) : Prop := ∃ T param off inner, R T param off inner q

section
variable {param off : Nat}

theorem FragmentFrom.sound {f : Fragment} (hw : f.WellRead env.config.scanner)
    (h : FragmentFrom env R T param off f ps) : (∀ p ∈ ps, p.Sound env R.Any) ∧
      env.config.scanner.ReadsLike (written ps) f.source := by
  have hone {p : Piece} (hp : p.Sound env R.Any) : ∀ q ∈ [p], q.Sound env R.Any := fun q hq =>
    List.mem_singleton.1 hq ▸ hp
  have hwritten (p : Piece) : written [p] = p.written := by simp [written]
  cases h with
  | @verbatim t =>
    refine ⟨hone hw, ?_⟩
    rw [hwritten]
    exact .refl _ t
  | placeholder => exact ⟨hone trivial, fun _ => rfl⟩
  | @kept w =>
    refine ⟨hone (Tame.silent hw), ?_⟩
    rw [hwritten]
    exact .refl _ w
  | column hc =>
    have hw : env.config.scanner.Balanced _ := (Tame.neutral hw).1
    exact ⟨hone hc, fun d => (hw.readsLike_nil d).symm⟩
  | output =>
    have hw : env.config.scanner.Balanced _ := (Tame.neutral hw).1
    exact ⟨hone trivial, fun d => (hw.readsLike_nil d).symm⟩
  | @subquery inner q hq =>
    have hi : env.config.scanner.Balanced inner := hw.1
    refine ⟨?_, fun d => ?_⟩
    · refine List.forall_mem_cons.2 ⟨silent_open, List.forall_mem_cons.2
        ⟨⟨_, _, _, _, hq⟩, hone silent_close⟩⟩
    · have h1 : env.config.scanner.Balanced ('(' :: ([] ++ [')'])) := Scanner.balanced_nil.enclosed
      exact (h1.read d).trans (hi.enclosed.read d).symm

theorem FragmentsFrom.sound {fs : List Fragment} (hw : ∀ f ∈ fs, f.WellRead env.config.scanner)
    (h : FragmentsFrom env R T param off fs ps) : (∀ p ∈ ps, p.Sound env R.Any) ∧
      env.config.scanner.ReadsLike (written ps) (fs.flatMap Fragment.source) := by
  induction h with
  | nil => exact ⟨nofun, .refl _ _⟩
  | @cons param off f fs ps qs hf _ ih =>
    obtain ⟨hps, hread⟩ := hf.sound (hw f List.mem_cons_self)
    obtain ⟨hqs, hread'⟩ := ih fun g hg => hw g (List.mem_cons_of_mem _ hg)
    refine ⟨List.forall_mem_append.2 ⟨hps, hqs⟩, ?_⟩
    rw [written, List.flatMap_append, List.flatMap_cons]
    exact hread.append hread' (silent_written hps).1

end

theorem ExprFrom.sound {g : Segment} (h : ExprFrom env R T g e) : e.Sound env R.Any := by
  obtain ⟨off, ps, hs, hps, he⟩ := h
  have hrun := hs.balanced.run
  obtain ⟨hsound, hread⟩ := hps.sound fun f hf => Fragment.wellRead_of_mem_ofText hrun hf
  rw [Fragment.flatMap_source_ofText hrun] at hread
  rw [Expr.Sound, he]
  exact PiecesSound.canonical ⟨hsound, hread.balanced hs.balanced⟩

/-! ## Queries -/

/-- All expressions in the clauses of a query have a property. -/
structure ClauseSet.Each (P : Expr → Prop) (c : ClauseSet) : Prop where
  select : ∀ e ∈ c.selectExprs, P e
  filter : ∀ e ∈ c.filter, P e
  groupBy : ∀ e ∈ c.groupBy, P e
  having : ∀ e ∈ c.having, P e
  orderBy : ∀ t ∈ c.orderBy, P t.expr

theorem ClauseSet.Each.mono {P P' : Expr → Prop} {c : ClauseSet} (hP : ∀ e, P e → P' e)
    (h : c.Each P) : c.Each P' :=
  ⟨fun e he => hP e (h.select e he), fun e he => hP e (h.filter e he),
    fun e he => hP e (h.groupBy e he), fun e he => hP e (h.having e he),
    fun t ht => hP _ (h.orderBy t ht)⟩

/-- The predicates of a node. -/
def JoinNode.exprs (n : JoinNode) : List Expr :=
  n.structural.toList ++ n.condition.toList.map (·.expr) ++ n.extra

/-- The expressions that are computed from the joined rows. -/
def ClauseSet.rowExprs (c : ClauseSet) : List Expr := c.selectExprs ++ c.filter.toList

/-- The expressions that may refer to the select list. -/
def ClauseSet.laterExprs (c : ClauseSet) : List Expr :=
  c.groupBy ++ c.having.toList ++ c.orderBy.map (·.expr)

/-- All expressions of a query. -/
def queryExprs (g : JoinGraph) (c : ClauseSet) : List Expr :=
  c.rowExprs ++ c.laterExprs ++ g.nodes.flatMap (·.exprs)

/-- All expressions of a query are sound. -/
structure QuerySound (env : Surroundings) (Q : Subquery → Prop) (g : JoinGraph) (c : ClauseSet) :
    Prop where
  clauses : c.Each (·.Sound env Q)
  joins : ∀ n ∈ g.nodes, ∀ e ∈ n.exprs, e.Sound env Q

theorem QuerySound.expr {g : JoinGraph} {c : ClauseSet} (h : QuerySound env Q g c)
    (he : e ∈ queryExprs g c) : e.Sound env Q := by
  simp only [queryExprs, ClauseSet.rowExprs, ClauseSet.laterExprs, List.mem_append,
    Option.mem_toList, List.mem_map, List.mem_flatMap] at he
  obtain ((he | he) | ((he | he) | ⟨t, ht, rfl⟩)) | ⟨n, hn, he⟩ := he
  · exact h.clauses.select e he
  · exact h.clauses.filter e he
  · exact h.clauses.groupBy e he
  · exact h.clauses.having e he
  · exact h.clauses.orderBy t ht
  · exact h.joins n hn e he

theorem QuerySound.mono {g : JoinGraph} {c : ClauseSet} (hQ : ∀ q, Q q → Q' q)
    (h : QuerySound env Q g c) : QuerySound env Q' g c :=
  ⟨h.clauses.mono fun _ he => he.mono hQ, fun n hn e he => (h.joins n hn e he).mono hQ⟩

/-- What holds of the expressions that come from a text, and of those that the schema asks for, holds
of all expressions of a query; those that the schema orders by come from other texts. -/
theorem QueryFrom.forall_exprs {P : Expr → Prop} {base : Nat} {q : Query} {g : JoinGraph}
    {c : ClauseSet} (h : QueryFrom env R T base q g c)
    (htext : ∀ s x, ExprFrom env R T s x → P x) (hschema : ∀ x, x.Generated env → P x)
    (hi : ∀ t ∈ c.orderBy, t.implicit = true → P t.expr) : ∀ x ∈ queryExprs g c, P x := by
  have hparts {ks : List Nat} {es : List Expr} (hes : PartsFrom env R T ks es) : ∀ x ∈ es, P x := by
    obtain ⟨parts, hparts, -⟩ := hes
    intro x hx
    obtain ⟨s, -, hs⟩ := exists_left_of_mem hparts hx
    exact htext s x hs
  refine List.forall_mem_append.2 ⟨List.forall_mem_append.2 ⟨List.forall_mem_append.2
    ⟨hparts h.select, hparts h.filter⟩, List.forall_mem_append.2 ⟨List.forall_mem_append.2
    ⟨hparts h.groupBy, hparts h.having⟩, List.forall_mem_map.2 fun t ht => ?_⟩⟩,
    List.forall_mem_flatMap.2 fun n hn => ?_⟩
  · cases himp : t.implicit with
    | true => exact hi t ht himp
    | false =>
      refine hparts h.orderBy t.expr (List.mem_map_of_mem (List.mem_filter.2 ⟨ht, ?_⟩))
      rw [himp]; rfl
  · have hderived := h.graph.derived n hn
    refine List.forall_mem_append.2 ⟨List.forall_mem_append.2 ⟨fun x hx => ?_,
      List.forall_mem_map.2 fun k hk => ?_⟩, fun x hx => hschema x (hderived.extra x hx)⟩
    · exact hschema x (hderived.structural x (Option.mem_toList.1 hx))
    · have hmem : k ∈ g.conditions := List.mem_filterMap.2 ⟨n, hn, Option.mem_toList.1 hk⟩
      obtain ⟨w, -, hw⟩ := exists_left_of_mem h.graph.conditions hmem
      exact htext _ _ hw.2

/-- The expressions of a query are sound, if those are that the schema orders by. -/
theorem QueryFrom.sound {base : Nat} {q : Query} {g : JoinGraph} {c : ClauseSet}
    (h : QueryFrom env R T base q g c)
    (hi : ∀ t ∈ c.orderBy, t.implicit = true → t.expr.Sound env R.Any) :
    QuerySound env R.Any g c := by
  obtain ⟨hclauses, hjoins⟩ := List.forall_mem_append.1 (h.forall_exprs
    (fun _ _ hx => hx.sound) (fun _ hx => hx.sound) hi)
  obtain ⟨hrows, hlater⟩ := List.forall_mem_append.1 hclauses
  obtain ⟨hselect, hfilter⟩ := List.forall_mem_append.1 hrows
  obtain ⟨hgroups, horder⟩ := List.forall_mem_append.1 hlater
  obtain ⟨hgroupBy, hhaving⟩ := List.forall_mem_append.1 hgroups
  exact ⟨⟨hselect, fun e he => hfilter e (Option.mem_toList.2 he), hgroupBy,
    fun e he => hhaving e (Option.mem_toList.2 he), List.forall_mem_map.1 horder⟩,
    List.forall_mem_flatMap.1 hjoins⟩

theorem QueryFrom.sound_of_explicit {base : Nat} {q : Query} {g : JoinGraph} {c : ClauseSet}
    (h : QueryFrom env R T base q g c) (hc : ∀ t ∈ c.orderBy, t.implicit = false) :
    QuerySound env R.Any g c := by
  refine h.sound fun t ht hi => ?_
  rw [hc t ht] at hi
  cases hi

/-- The expressions of a subquery are sound: the schema orders none of its rows. -/
theorem SubqueryFrom.sound {levels param off : Nat} {inner : Text} {q : Subquery}
    (h : SubqueryFrom env (levels + 1) T param off inner q) :
    QuerySound env (SubqueryFrom env levels).Any q.graph q.clauses := by
  obtain ⟨-, hexplicit, -, _, -, hq⟩ := h
  exact hq.sound_of_explicit hexplicit

/-- The expressions of a plan that comes from a text are sound. -/
theorem PlanFrom.sound {p : QueryPlan} (h : PlanFrom env T p) :
    QuerySound env env.origin.Any p.graph p.clauses := by
  obtain ⟨q, -, hq⟩ := h.query
  refine hq.sound fun t ht hi => ?_
  obtain ⟨ordering, g, -, he⟩ := h.implicit t ht hi
  exact he.sound

/-! ## References to the select list -/

section
variable {c : ClauseSet}

theorem expr_mem_of_expression? {owner o : AliasId} {ordinal k : Nat} {name : Option String}
    (h : c.expression? owner ordinal = some (.expression o k e name)) : e ∈ c.selectExprs :=
  List.mem_filterMap.2 ⟨_, List.mem_of_find?_eq_some h, rfl⟩

/-- Pieces that take the place of others are sound and read alike when each group of them is. -/
theorem flatMap_sound {f : Piece → List Piece}
    (hf : ∀ p ∈ ps, (∀ q ∈ f p, q.Sound env Q) ∧
      env.config.scanner.ReadsLike (written (f p)) p.written) :
    (∀ q ∈ ps.flatMap f, q.Sound env Q) ∧
      env.config.scanner.ReadsLike (written (ps.flatMap f)) (written ps) := by
  induction ps with
  | nil => exact ⟨nofun, .refl _ _⟩
  | cons p ps ih =>
    obtain ⟨h1, h2⟩ := hf p List.mem_cons_self
    obtain ⟨ih1, ih2⟩ := ih fun q hq => hf q (List.mem_cons_of_mem _ hq)
    rw [List.flatMap_cons]
    refine ⟨List.forall_mem_append.2 ⟨h1, ih1⟩, ?_⟩
    simp only [written, List.flatMap_append, List.flatMap_cons]
    exact h2.append ih2 (silent_written h1).1

theorem inlinePieces_sound (hc : ∀ e ∈ c.selectExprs, e.Sound env Q) (fuel : Nat)
    (hp : ∀ p ∈ ps, p.Sound env Q) : (∀ q ∈ inlinePieces c fuel ps, q.Sound env Q) ∧
      env.config.scanner.ReadsLike (written (inlinePieces c fuel ps)) (written ps) := by
  induction fuel generalizing ps with
  | zero => exact ⟨hp, .refl _ _⟩
  | succ fuel ih =>
    refine flatMap_sound fun p hmem => ?_
    have hone : (∀ q ∈ [p], q.Sound env Q) ∧
        env.config.scanner.ReadsLike (written [p]) p.written := by
      refine ⟨fun q hq => List.mem_singleton.1 hq ▸ hp p hmem, ?_⟩
      simp only [written, List.flatMap_singleton]
      exact .refl _ _
    cases p with
    | output owner ordinal =>
      dsimp only
      split
      · rename_i e _ h
        have he := hc e (expr_mem_of_expression? h)
        obtain ⟨h1, h2⟩ := ih he.pieces
        exact ⟨h1, (h2.balanced he.balanced).readsLike_nil⟩
      · exact hone
    | text | column | placeholder | subquery | discriminator => exact hone

/-- An expression with its references replaced by select expressions. -/
theorem Expr.Sound.inlined (hc : ∀ e ∈ c.selectExprs, e.Sound env Q) (h : e.Sound env Q) :
    (e.inlined c).Sound env Q := by
  obtain ⟨h1, h2⟩ := inlinePieces_sound hc c.select.length h.pieces
  exact ⟨h1, h2.balanced h.balanced⟩

/-- In the place of references stand pieces of select expressions. -/
theorem mem_inlinePieces {x : Piece} {fuel : Nat} (h : x ∈ inlinePieces c fuel ps) :
    x ∈ ps ∨ ∃ e ∈ c.selectExprs, x ∈ e.pieces := by
  induction fuel generalizing ps with
  | zero => exact .inl h
  | succ fuel ih =>
    rw [inlinePieces] at h
    obtain ⟨p, hp, hx⟩ := List.mem_flatMap.1 h
    have hone (hx : x ∈ [p]) : x ∈ ps := List.mem_singleton.1 hx ▸ hp
    cases p with
    | output owner ordinal =>
      dsimp only at hx
      split at hx
      · rename_i e _ he
        exact .inr ((ih hx).elim (fun hx => ⟨e, expr_mem_of_expression? he, hx⟩) id)
      · exact .inl (hone hx)
    | text | column | placeholder | subquery | discriminator => exact .inl (hone hx)

theorem Expr.mem_inlined {x : Piece} (h : x ∈ (e.inlined c).pieces) :
    x ∈ e.pieces ∨ ∃ y ∈ c.selectExprs, x ∈ y.pieces :=
  mem_inlinePieces h

theorem Expr.mem_ordinals_inlined {n : Nat} (h : n ∈ (e.inlined c).ordinals) :
    n ∈ e.ordinals ∨ ∃ x ∈ c.selectExprs, n ∈ x.ordinals := by
  rw [Expr.ordinals_eq, Piece.ordinalsAll_eq, List.mem_flatMap] at h
  obtain ⟨x, hx, hn⟩ := h
  have hordinals {y : Expr} (hx : x ∈ y.pieces) : n ∈ y.ordinals := by
    rw [Expr.ordinals_eq, Piece.ordinalsAll_eq]
    exact List.mem_flatMap.2 ⟨x, hx, hn⟩
  exact (mem_inlined hx).imp hordinals fun ⟨y, hy, hx⟩ => ⟨y, hy, hordinals hx⟩

end
end ObjectQuery
