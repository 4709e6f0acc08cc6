import ObjectQuery.Proofs.Compiler.Placeholders
import ObjectQuery.Proofs.Plan.Depth
import ObjectQuery.Proofs.Resolve.Outcomes
import ObjectQuery.Proofs.Resolve.Query

/-! # How many levels of subqueries a resolution needs

A resolution reads the limit on the nesting of subqueries only where it enters one. So a run under
some limit decides what happens under all: where the subqueries that it yields fit, the run is the
same, and elsewhere it stops at the first of them that does not (`Resolve.NeedsLevels`). How many
levels are needed is the depth of what is resolved.

* `Resolve.NeedsLevels.bind`, `Resolve.NeedsLevels.enter`: one computation after another, and a
  subquery;
* `resolveExpr_needs`, `resolveClauses_needs`, `resolveFrom_needs`: the parts of a query;
* `resolveSubquery_needs`: subqueries, by induction on the levels that are left;
* `plan_depth`: plans. -/

namespace ObjectQuery

namespace Resolve

variable {α β : Type} {used m n limit : Nat} {x y : Nat → Resolve α} {f : Nat → α → Resolve β}
  {x₀ : Resolve α} {f₀ : α → Resolve β} {a : α} {c : β} {b b₁ b' : Bindings} {clause : Clause}

/-- From the bindings `b` on, with `used` levels of subqueries entered, `n` more are needed: where the
limit `k` leaves so many, the computation `x k` succeeds with `a` and the bindings `b'`, and anywhere
else it fails since subqueries are nested too deep. -/
structure NeedsLevels (used n : Nat) (x : Nat → Resolve α) (b : Bindings) (a : α) (b' : Bindings) :
    Prop where
  runs : ∀ k, used + n ≤ k → (x k).Runs b a b'
  error : ∀ k, used ≤ k → k < used + n →
    ∃ clause, ((x k).run b).1 = .error (.malformed clause (.nestedTooDeep k))

namespace NeedsLevels

/-- A computation that does not depend on the limit needs no levels. -/
theorem const (h : x₀.Runs b a b') : NeedsLevels used 0 (fun _ => x₀) b a b' :=
  ⟨fun _ _ => h, fun _ hk hlt => absurd hlt (Nat.not_lt.2 hk)⟩

theorem bind (hx : NeedsLevels used m x b a b₁) (hf : NeedsLevels used n (f · a) b₁ c b') :
    NeedsLevels used (max m n) (fun k => x k >>= f k) b c b' := by
  refine ⟨fun k hk => ?_, fun k hk hlt => ?_⟩
  · exact runs_bind.2 ⟨a, b₁, hx.runs k (by omega), hf.runs k (by omega)⟩
  · by_cases hm : used + m ≤ k
    · rw [run_bind_of_runs (hx.runs k hm)]
      exact hf.error k hk (by omega)
    · obtain ⟨clause, he⟩ := hx.error k hk (by omega)
      exact ⟨clause, by rw [run_bind_of_error (Prod.ext he rfl)]⟩

theorem const_bind (hx : x₀.Runs b a b₁) (hf : NeedsLevels used n (f · a) b₁ c b') :
    NeedsLevels used n (fun k => x₀ >>= f k) b c b' := by
  have := (const hx).bind hf
  rwa [Nat.zero_max] at this

theorem bind_const (hx : NeedsLevels used n x b a b₁) (hf : (f₀ a).Runs b₁ c b') :
    NeedsLevels used n (fun k => x k >>= f₀) b c b' := by
  have := hx.bind (f := fun _ => f₀) (.const hf)
  rwa [Nat.max_zero] at this

theorem map {g : α → β} (hx : NeedsLevels used n x b a b') :
    NeedsLevels used n (fun k => g <$> x k) b (g a) b' := by
  simp only [map_eq_pure_bind]
  exact hx.bind_const (runs_pure.2 ⟨rfl, rfl⟩)

theorem inScope (hx : NeedsLevels used n x { b with resolver := b.resolver.pushScope } a b') :
    NeedsLevels used n (fun k => inScope (x k)) b a
      { b' with resolver := b'.resolver.popScope } := by
  refine ⟨fun k hk => runs_inScope.2 ⟨b', hx.runs k hk, rfl⟩, fun k hk hlt => ?_⟩
  rw [run_inScope]
  exact hx.error k hk hlt

/-- Limits that leave no level do not matter. -/
theorem congr (h : ∀ k, used ≤ k → x k = y k) (hy : NeedsLevels used n y b a b') :
    NeedsLevels used n x b a b' := by
  refine ⟨fun k hk => ?_, fun k hk hlt => ?_⟩
  · rw [h k (by omega)]
    exact hy.runs k hk
  · rw [h k hk]
    exact hy.error k hk hlt

/-- A subquery takes a level for itself, and the levels that are needed inside it. -/
theorem enter (hzero : x used = malformed clause (.nestedTooDeep used))
    (h : NeedsLevels (used + 1) n x b a b') : NeedsLevels used (n + 1) x b a b' := by
  refine ⟨fun k hk => h.runs k (by omega), fun k hk hlt => ?_⟩
  rcases Nat.eq_or_lt_of_le hk with rfl | hk
  · exact ⟨clause, by rw [hzero]; rfl⟩
  · exact h.error k hk (by omega)

/-- The limit leaves at least the levels that a run under it needed. -/
theorem le_of_runs (h : NeedsLevels used n x b a b') (hlimit : used ≤ limit)
    (hr : (x limit).Runs b a b') : used + n ≤ limit := by
  by_contra hlt
  obtain ⟨clause, he⟩ := h.error limit hlimit (by omega)
  rw [show (x limit).run b = (.ok a, b') from hr] at he
  cases he

/-- A fold needs the levels of its deepest step, if every step adds to a depth what it needs. -/
theorem foldlM {g : Nat → β → α → Resolve β} {I : β → Bindings → Prop} {as : List α} {s s' : β}
    (depth : β → Nat) (hI : I s b)
    (hg : ∀ a ∈ as, ∀ s b s' b', I s b → (g limit s a).Runs b s' b' → I s' b' ∧
      ∃ n, NeedsLevels used n (g · s a) b s' b' ∧ depth s' = max (depth s) n)
    (h : (as.foldlM (g limit) s).Runs b s' b') : I s' b' ∧
      ∃ n, NeedsLevels used n (fun k => as.foldlM (g k) s) b s' b' ∧
        depth s' = max (depth s) n := by
  induction as generalizing s b with
  | nil =>
    obtain ⟨rfl, rfl⟩ := runs_foldlM_nil.1 h
    exact ⟨hI, 0, .const h, (Nat.max_zero _).symm⟩
  | cons a as ih =>
    obtain ⟨s₁, b₁, h1, h2⟩ := runs_foldlM_cons.1 h
    obtain ⟨ha, has⟩ := List.forall_mem_cons.1 hg
    obtain ⟨hI₁, m, hm, hdm⟩ := ha s b s₁ b₁ hI h1
    obtain ⟨hI', n, hn, hdn⟩ := ih hI₁ has h2
    refine ⟨hI', max m n, ?_, by rw [hdn, hdm, Nat.max_assoc]⟩
    simp only [List.foldlM_cons]
    exact hm.bind hn

end NeedsLevels
end Resolve

open Resolve

variable {env : Surroundings} {R : Origin} {T t inner : Text} {limit used param n k : Nat}
  {sub : Nat → ResolveSubquery} {scanner : Scanner} {clause : Clause} {bare : BareWords}
  {join : Option JoinScope} {b b' : Bindings} {g g' graph : JoinGraph} {c : ClauseSet} {q : Query}

/-! ## Expressions -/

/-- The resolvers of subqueries for all limits, with `used` levels entered: what the one for `limit`
yields needs as many levels as it is deep, and one for itself. -/
def NeedsDepth (env : Surroundings) (limit used : Nat) (sub : Nat → ResolveSubquery) : Prop :=
  ∀ (inner : Text) (param : Nat) (clause : Clause) (b b' : Bindings) (q : Subquery),
    b.Sound env → Runs (sub limit inner param clause) b q b' →
    b.Extends env b' ∧ NeedsLevels used (q.depth + 1) (sub · inner param clause) b q b'

theorem WordPiece.depth_eq_zero {w : Text} {p : Piece} (h : WordPiece b bare w p) :
    p.depth = 0 := by
  cases h <;> rw [Piece.depth]

theorem Fragment.resolve_needs {f : Fragment} {ps : List Piece}
    (hsub : NeedsDepth env limit used sub) (hb : b.Sound env)
    (h : (f.resolve (sub limit) clause bare join param).Runs b ps b') :
    b.Extends env b' ∧ NeedsLevels used (Piece.depthAll ps)
      (fun k => f.resolve (sub k) clause bare join param) b ps b' := by
  cases f with
  | verbatim t | placeholder =>
    obtain ⟨rfl, rfl⟩ := runs_pure.1 h
    exact ⟨.refl hb, .const h⟩
  | named t => exact absurd h not_runs_malformed
  | subquery inner =>
    obtain ⟨q, _, h1, h2⟩ := runs_bind.1 h
    obtain ⟨rfl, rfl⟩ := runs_pure.1 h2
    obtain ⟨hext, hq⟩ := hsub _ _ _ _ _ _ hb h1
    have hdepth : Piece.depthAll [.text ['('], .subquery q, .text [')']] = q.depth + 1 := by
      simp [Piece.depthAll, Piece.depth]
    exact ⟨hext, hdepth ▸ hq.bind_const h2⟩
  | word w called =>
    obtain ⟨rfl, p, rfl, hp⟩ := runs_resolve_word h
    have hdepth : Piece.depthAll [p] = 0 := by simp [Piece.depthAll, hp.depth_eq_zero]
    exact ⟨.refl hb, hdepth ▸ .const h⟩

theorem resolveFragments_needs {fs : List Fragment} {ps : List Piece}
    (hsub : NeedsDepth env limit used sub) (hb : b.Sound env)
    (h : (resolveFragments scanner (sub limit) clause bare join param fs).Runs b ps b') :
    b.Extends env b' ∧ NeedsLevels used (Piece.depthAll ps)
      (fun k => resolveFragments scanner (sub k) clause bare join param fs) b ps b' := by
  induction fs generalizing param b ps with
  | nil =>
    obtain ⟨rfl, rfl⟩ := runs_pure.1 h
    exact ⟨.refl hb, .const h⟩
  | cons f fs ih =>
    obtain ⟨ps, b₁, h1, h⟩ := runs_bind.1 h
    obtain ⟨qs, b₂, h2, h3⟩ := runs_bind.1 h
    obtain ⟨rfl, rfl⟩ := runs_pure.1 h3
    obtain ⟨hext, hps⟩ := Fragment.resolve_needs hsub hb h1
    obtain ⟨hext', hqs⟩ := ih hext.sound h2
    rw [Piece.depthAll_append]
    exact ⟨hext.trans hext', hps.bind (hqs.bind_const h3)⟩

/-- An expression needs as many levels as it is deep. -/
theorem resolveExpr_needs {e : Expr} (hsub : NeedsDepth env limit used sub) (hb : b.Sound env)
    (h : (resolveExpr scanner (sub limit) clause bare join param t).Runs b e b') :
    b.Extends env b' ∧ NeedsLevels used e.depth
      (fun k => resolveExpr scanner (sub k) clause bare join param t) b e b' := by
  obtain ⟨_, _, h1, h⟩ := runs_bind.1 h
  obtain ⟨-, rfl⟩ := runs_scanning.1 h1
  obtain ⟨ps, _, h2, h3⟩ := runs_bind.1 h
  obtain ⟨rfl, rfl⟩ := runs_pure.1 h3
  obtain ⟨hext, hps⟩ := resolveFragments_needs hsub hb h2
  rw [Expr.depth_ofPieces]
  exact ⟨hext, .const_bind h1 (hps.bind_const h3)⟩

/-! ## Clauses -/

/-- The depth of a select list. -/
abbrev selectDepth (items : List SelectItem) : Nat := Expr.depthAll (items.filterMap (·.expr?))

theorem ColumnsOf.selectDepth_eq_zero {items : List SelectItem} (h : ColumnsOf b graph t items) :
    selectDepth items = 0 := by
  have hnil : items.filterMap (·.expr?) = [] := by
    cases h with
    | all => rw [List.filterMap_map]; exact List.filterMap_eq_nil_iff.2 fun _ _ => rfl
    | qualified | ofRoot => rfl
  rw [selectDepth, hnil, Expr.depthAll_nil]

theorem resolveSelectItem_needs {ordinal : Nat} {i : Item} {items : List SelectItem}
    (hsub : NeedsDepth env limit used sub) (hb : b.Sound env)
    (h : (resolveSelectItem env (sub limit) graph ordinal i).Runs b items b') :
    b.Extends env b' ∧ NeedsLevels used (selectDepth items)
      (fun k => resolveSelectItem env (sub k) graph ordinal i) b items b' := by
  obtain ⟨⟨u, name⟩, _, h1, h⟩ := runs_bind.1 h
  obtain ⟨-, rfl⟩ := runs_scanning.1 h1
  -- what is no list of columns is an expression
  have hexpr {b : Bindings} (hb : b.Sound env) (h : Runs (do
      let expr ← resolveExpr env.config.scanner (sub limit) .select {} none i.param u
      return [.expression (graph.ownerOf expr) ordinal expr name]) b items b') :
      b.Extends env b' ∧ NeedsLevels used (selectDepth items) (fun k => do
        let expr ← resolveExpr env.config.scanner (sub k) .select {} none i.param u
        return [SelectItem.expression (graph.ownerOf expr) ordinal expr name]) b items b' := by
    obtain ⟨e, _, h2, h3⟩ := runs_bind.1 h
    obtain ⟨rfl, rfl⟩ := runs_pure.1 h3
    obtain ⟨hext, he⟩ := resolveExpr_needs hsub hb h2
    have hdepth : selectDepth [.expression (graph.ownerOf e) ordinal e name] = e.depth := by
      simp [selectDepth, SelectItem.expr?]
    exact ⟨hext, hdepth ▸ he.bind_const h3⟩
  cases hname : name.isSome with
  | true =>
    simp only [hname, if_true] at h
    obtain ⟨_, _, h2, h3⟩ := runs_bind.1 h
    obtain ⟨rfl, rfl⟩ := runs_pure.1 h2
    obtain ⟨hext, he⟩ := hexpr hb h3
    refine ⟨hext, .const_bind h1 ?_⟩
    simp only [hname, if_true]
    exact .const_bind h2 he
  | false =>
    simp only [hname, Bool.false_eq_true, if_false] at h
    obtain ⟨fields, _, h2, h3⟩ := runs_bind.1 h
    obtain ⟨rfl, hfields⟩ := runs_resolveFields h2
    cases fields with
    | some fields =>
      obtain ⟨rfl, rfl⟩ := runs_pure.1 h3
      refine ⟨.refl hb, .const_bind h1 ?_⟩
      rw [(hfields fields rfl).selectDepth_eq_zero]
      simp only [hname, Bool.false_eq_true, if_false]
      exact .const_bind h2 (.const h3)
    | none =>
      obtain ⟨hext, he⟩ := hexpr hb h3
      refine ⟨hext, .const_bind h1 ?_⟩
      simp only [hname, Bool.false_eq_true, if_false]
      exact .const_bind h2 he

theorem resolveSelectItems_needs {ordinal : Nat} {is : List Item} {items : List SelectItem}
    (hsub : NeedsDepth env limit used sub) (hb : b.Sound env)
    (h : (resolveSelectItems env (sub limit) graph ordinal is).Runs b items b') :
    b.Extends env b' ∧ NeedsLevels used (selectDepth items)
      (fun k => resolveSelectItems env (sub k) graph ordinal is) b items b' := by
  induction is generalizing ordinal items b with
  | nil =>
    obtain ⟨rfl, rfl⟩ := runs_pure.1 h
    rw [selectDepth, List.filterMap_nil, Expr.depthAll_nil]
    exact ⟨.refl hb, .const h⟩
  | cons i is ih =>
    obtain ⟨first, b₁, h1, h⟩ := runs_bind.1 h
    obtain ⟨rest, b₂, h2, h3⟩ := runs_bind.1 h
    obtain ⟨rfl, rfl⟩ := runs_pure.1 h3
    obtain ⟨hext, hfirst⟩ := resolveSelectItem_needs hsub hb h1
    obtain ⟨hext', hrest⟩ := ih hext.sound h2
    rw [selectDepth, List.filterMap_append, Expr.depthAll_append]
    exact ⟨hext.trans hext', hfirst.bind (hrest.bind_const h3)⟩

theorem resolveSelect_needs {clause? : Option Segment} {items : List SelectItem}
    (hsub : NeedsDepth env limit used sub) (hb : b.Sound env) (hg : graph.Sound env b.size)
    (h : (resolveSelect env (sub limit) graph param clause?).Runs b items b') :
    b.Extends env b' ∧ NeedsLevels used (selectDepth items)
      (fun k => resolveSelect env (sub k) graph param clause?) b items b' := by
  cases clause? with
  | none =>
    obtain ⟨rfl, rfl⟩ := runs_pure.1 h
    rw [selectDepth, (allFields_spec hg).exprs, Expr.depthAll_nil]
    exact ⟨.refl hb, .const h⟩
  | some g =>
    obtain ⟨is, _, h1, h2⟩ := runs_bind.1 h
    obtain ⟨-, rfl⟩ := runs_lift.1 h1
    obtain ⟨hext, his⟩ := resolveSelectItems_needs hsub hb h2
    exact ⟨hext, .const_bind h1 his⟩

theorem resolveCondition_needs {clause? : Option Segment} {e? : Option Expr}
    (hsub : NeedsDepth env limit used sub) (hb : b.Sound env)
    (h : (resolveCondition env (sub limit) clause bare param clause?).Runs b e? b') :
    b.Extends env b' ∧ NeedsLevels used (Expr.depthAll e?.toList)
      (fun k => resolveCondition env (sub k) clause bare param clause?) b e? b' := by
  cases clause? with
  | none =>
    obtain ⟨rfl, rfl⟩ := runs_pure.1 h
    exact ⟨.refl hb, Expr.depthAll_nil ▸ .const h⟩
  | some g =>
    obtain ⟨e, h1, rfl⟩ := runs_map.1 h
    obtain ⟨hext, he⟩ := resolveExpr_needs hsub hb h1
    rw [Option.toList_some, Expr.depthAll_cons, Expr.depthAll_nil, Nat.max_zero]
    exact ⟨hext, he.map⟩

theorem resolveList_needs {α : Type} {x : α → Expr} {f : Nat → Item → Resolve α}
    {clause? : Option Segment} {as : List α} (hb : b.Sound env)
    (hf : ∀ i b a b', b.Sound env → (f limit i).Runs b a b' →
      b.Extends env b' ∧ NeedsLevels used (x a).depth (f · i) b a b')
    (h : (resolveList env clause param (f limit) clause?).Runs b as b') :
    b.Extends env b' ∧ NeedsLevels used (Expr.depthAll (as.map x))
      (fun k => resolveList env clause param (f k) clause?) b as b' := by
  cases clause? with
  | none =>
    obtain ⟨rfl, rfl⟩ := runs_pure.1 h
    exact ⟨.refl hb, Expr.depthAll_nil ▸ .const h⟩
  | some g =>
    obtain ⟨is, _, h1, h2⟩ := runs_bind.1 h
    obtain ⟨-, rfl⟩ := runs_lift.1 h1
    have hmap : b.Extends env b' ∧
        NeedsLevels used (Expr.depthAll (as.map x)) (fun k => is.mapM (f k)) b as b' := by
      clear h h1
      induction is generalizing as b with
      | nil =>
        obtain ⟨rfl, rfl⟩ := runs_mapM_nil.1 h2
        exact ⟨.refl hb, Expr.depthAll_nil ▸ .const h2⟩
      | cons i is ih =>
        obtain ⟨a, b₁, as, ha, has, rfl⟩ := runs_mapM_cons.1 h2
        obtain ⟨hext, hn⟩ := hf i b a b₁ hb ha
        obtain ⟨hext', hns⟩ := ih hext.sound has
        rw [List.map_cons, Expr.depthAll_cons]
        simp only [List.mapM_cons]
        exact ⟨hext.trans hext', hn.bind (hns.bind_const (runs_pure.2 ⟨rfl, rfl⟩))⟩
    exact ⟨hmap.1, .const_bind h1 hmap.2⟩

theorem resolveOrderItem_needs {implicit : Bool} {i : Item} {o : OrderTerm}
    (hsub : NeedsDepth env limit used sub) (hb : b.Sound env)
    (h : (resolveOrderItem env (sub limit) bare implicit i).Runs b o b') :
    b.Extends env b' ∧ NeedsLevels used o.expr.depth
      (fun k => resolveOrderItem env (sub k) bare implicit i) b o b' := by
  obtain ⟨⟨u, direction⟩, _, h1, h⟩ := runs_bind.1 h
  obtain ⟨-, rfl⟩ := runs_scanning.1 h1
  obtain ⟨e, _, h2, h3⟩ := runs_bind.1 h
  obtain ⟨rfl, rfl⟩ := runs_pure.1 h3
  obtain ⟨hext, he⟩ := resolveExpr_needs hsub hb h2
  exact ⟨hext, .const_bind h1 (he.bind_const h3)⟩

/-- Clauses need as many levels as they are deep. -/
theorem resolveClauses_needs {q : ClauseTexts} (hsub : NeedsDepth env limit used sub)
    (hb : b.Sound env) (hg : graph.Sound env b.size)
    (h : (resolveClauses env (sub limit) graph param q).Runs b c b') :
    b.Extends env b' ∧ NeedsLevels used c.depth
      (fun k => resolveClauses env (sub k) graph param q) b c b' := by
  obtain ⟨select, b₁, h1, h⟩ := runs_bind.1 h
  obtain ⟨filter, b₂, h2, h⟩ := runs_bind.1 h
  obtain ⟨groupBy, b₃, h3, h⟩ := runs_bind.1 h
  obtain ⟨having, b₄, h4, h⟩ := runs_bind.1 h
  obtain ⟨orderBy, b₅, h5, h6⟩ := runs_bind.1 h
  obtain ⟨rfl, rfl⟩ := runs_pure.1 h6
  obtain ⟨hext₁, n₁⟩ := resolveSelect_needs hsub hb hg h1
  obtain ⟨hext₂, n₂⟩ := resolveCondition_needs hsub hext₁.sound h2
  obtain ⟨hext₃, n₃⟩ := resolveList_needs (x := id) hext₂.sound
    (fun _ _ _ _ hb h => resolveExpr_needs hsub hb h) h3
  obtain ⟨hext₄, n₄⟩ := resolveCondition_needs hsub hext₃.sound h4
  obtain ⟨hext₅, n₅⟩ := resolveList_needs (x := OrderTerm.expr) hext₄.sound
    (fun _ _ _ _ hb h => resolveOrderItem_needs hsub hb h) h5
  refine ⟨hext₁.trans (hext₂.trans (hext₃.trans (hext₄.trans hext₅))), ?_⟩
  have hall : NeedsLevels used _ (fun k => resolveClauses env (sub k) graph param q) b _ b₅ :=
    n₁.bind (n₂.bind (n₃.bind (n₄.bind (n₅.bind_const h6))))
  simpa only [ClauseSet.depth_eq, ClauseSet.rowExprs, ClauseSet.laterExprs, ClauseSet.selectExprs,
    Expr.depthAll_append, Nat.max_assoc, List.map_id] using hall

/-! ## Joins -/

/-- A join adds its condition, if it has any, to the depth of the graph. -/
theorem resolveJoin_needs {declared : List String} {j : Joined}
    (hsub : NeedsDepth env limit used sub) (hyields : (sub limit).Yields env R)
    (hb : b.Sound env) (hg : g.Sound env b.size) (hj : j.Ready env.config.scanner T param)
    (h : (resolveJoin env (sub limit) param declared g j).Runs b g' b') :
    ∃ n, NeedsLevels used n (fun k => resolveJoin env (sub k) param declared g j) b g' b' ∧
      g'.depth = max g.depth n := by
  have htakes := resolveJoin_spec hyields hb hg hj h
  have hdepth {es : List JoinCondition} (hes : g'.conditions = g.conditions ++ es) :
      g'.depth = max g.depth (Expr.depthAll (es.map (·.expr))) := by
    rw [JoinGraph.depth_eq htakes.sound.derived, JoinGraph.depth_eq hg.derived, hes,
      List.map_append, Expr.depthAll_append]
  cases hk : j.condition with
  | none =>
    obtain ⟨cs, hcs, hforall⟩ := htakes.conditions
    rw [hk] at hforall
    cases hforall
    refine ⟨0, ?_, (hdepth hcs).trans (by rw [List.map_nil, Expr.depthAll_nil])⟩
    have hconst (k : Nat) : resolveJoin env (sub k) param declared g j =
        resolveJoin env (sub limit) param declared g j := by
      simp only [resolveJoin, hk]
    simp only [hconst]
    exact .const h
  | some k =>
    obtain ⟨start, _, h1, hrest⟩ := runs_bind.1 h
    obtain ⟨rfl, hstart, -⟩ := runs_resolveStart h1
    obtain ⟨_, _, h2, hrest⟩ := runs_bind.1 hrest
    obtain ⟨rfl, rfl⟩ := runs_get.1 h2
    split at hrest
    · exact absurd hrest not_runs_malformed
    rename_i hnew
    obtain ⟨⟨g₁, id⟩, b₁, hpath, hrest⟩ := runs_bind.1 hrest
    dsimp only at hrest
    rw [hk] at hrest
    obtain ⟨e, b₂, h3, hrest⟩ := runs_bind.1 hrest
    obtain ⟨g₂, _, h4, h5⟩ := runs_bind.1 hrest
    obtain ⟨rfl, rfl⟩ := runs_pure.1 h4
    obtain ⟨rfl, hindexes, -⟩ := runs_indexBy h5
    -- the occurrence of the join is new, so that it has no condition yet
    rw [Bool.not_eq_true, Option.isSome_eq_false_iff, Option.isNone_iff_eq_none] at hnew
    have hgrows := hj.growsTo hb hg hstart hnew hpath
    obtain ⟨ns, m, rfl, hid, hcond⟩ := hgrows.nodes
    obtain ⟨off, hs⟩ := hj.stands k hk
    obtain ⟨-, -, hreads⟩ := resolveExpr_spec hyields hgrows.grows.sound BareWords.Sound.empty hs h3
    obtain ⟨hext, he⟩ := resolveExpr_needs hsub hgrows.grows.sound h3
    obtain ⟨heq, hsound, hcs⟩ := attach_spec (c := ⟨k.kind, e⟩) hgrows.sound hid hcond hext.size_le
      hreads
    rw [heq] at hindexes
    obtain ⟨-, -, hcs'⟩ := indexes_spec hsound hid hindexes
    refine ⟨e.depth, ?_, (hdepth (hcs'.trans hcs)).trans (by simp)⟩
    refine .const_bind h1 (.const_bind h2 ?_)
    simp only [hnew, Option.isSome_none, Bool.false_eq_true, if_false, hk]
    exact .const_bind hpath (he.bind_const (runs_bind.2 ⟨_, _, h4, h5⟩))

/-- Joins need as many levels as they are deep. -/
theorem resolveFrom_needs {f : FromList} (hsub : NeedsDepth env limit used sub)
    (hyields : (sub limit).Yields env R) (hb : b.Sound env) (hscope : b.resolver.scope = [])
    (hroot : f.root.Named) (hj : ∀ j ∈ f.joins, j.Ready env.config.scanner T param)
    (h : (resolveFrom env (sub limit) param f).Runs b g b') :
    NeedsLevels used g.depth (fun k => resolveFrom env (sub k) param f) b g b' := by
  obtain ⟨g₀, b₁, h1, h2⟩ := runs_bind.1 h
  obtain ⟨hs, hgr, -, hnone, hnil⟩ := resolveRoot_spec hb hscope hroot h1
  have hzero : g₀.depth = 0 := by
    rw [JoinGraph.depth_eq hs.derived]
    simp [JoinGraph.conditions, JoinGraph.nodes, hnil, hnone]
  obtain ⟨-, n, hn, hdepth⟩ := NeedsLevels.foldlM JoinGraph.depth
    (I := fun g b => b.Sound env ∧ g.Sound env b.size)
    (g := fun k => resolveJoin env (sub k) param f.aliases) ⟨hgr.sound, hs⟩
    (fun j hmem g b g' b' hI h => by
      have htakes := resolveJoin_spec hyields hI.1 hI.2 (hj j hmem) h
      exact ⟨⟨htakes.grows.sound, htakes.sound⟩,
        resolveJoin_needs hsub hyields hI.1 hI.2 (hj j hmem) h⟩) h2
  rw [hdepth, hzero, Nat.zero_max]
  exact .const_bind h1 hn

/-! ## Queries -/

/-- A query needs as many levels as its joins and clauses are deep. -/
theorem resolveQuery_needs {off : Nat} (hsub : NeedsDepth env limit used sub)
    (hyields : (sub limit).Yields env R) (hb : b.Sound env) (hscope : b.resolver.scope = [])
    (hs : env.config.scanner.Stands T off param inner) (hq : q.Read env.config.scanner inner)
    (h : (resolveQuery env (sub limit) param q).Runs b (graph, c) b') :
    NeedsLevels used (max graph.depth c.depth) (fun k => resolveQuery env (sub k) param q) b
      (graph, c) b' := by
  obtain ⟨b₁, h1, h2⟩ := runs_resolveQuery h
  obtain ⟨hroot, hjoins⟩ := hq.ready hs
  obtain ⟨-, hsound, hgrows⟩ := resolveFrom_spec hyields hb hscope hroot hjoins h1
  have hfrom := resolveFrom_needs hsub hyields hb hscope hroot hjoins h1
  obtain ⟨-, hclauses⟩ := resolveClauses_needs hsub hgrows.sound hsound h2
  exact hfrom.bind (hclauses.bind_const (runs_pure.2 ⟨rfl, rfl⟩))

/-! ## The limit -/

/-- The same surroundings with another limit on the nesting of subqueries. -/
def Surroundings.withDepth (env : Surroundings) (k : Nat) : Surroundings :=
  { env with config := { env.config with maxSubqueryDepth := k } }

section
variable {subquery : ResolveSubquery}

theorem resolvePath_withDepth {kind : JoinKind} {head userAlias walked : String} {id : AliasId}
    {relations : List String} :
    resolvePath (env.withDepth k) kind head userAlias g id walked relations =
      resolvePath env kind head userAlias g id walked relations := by
  induction relations generalizing g id walked with
  | nil => rfl
  | cons relation rest ih =>
    cases rest with
    | nil => rfl
    | cons next rest =>
      simp only [resolvePath, ih]
      rfl

theorem resolveJoin_withDepth {declared : List String} :
    resolveJoin (env.withDepth k) subquery param declared =
      resolveJoin env subquery param declared := by
  funext g j
  simp only [resolveJoin, resolvePath_withDepth]
  rfl

theorem resolveSelectItems_withDepth {ordinal : Nat} {is : List Item} :
    resolveSelectItems (env.withDepth k) subquery g ordinal is =
      resolveSelectItems env subquery g ordinal is := by
  induction is generalizing ordinal with
  | nil => rfl
  | cons i is ih =>
    simp only [resolveSelectItems, ih]
    rfl

theorem resolveClauses_withDepth {t : ClauseTexts} :
    resolveClauses (env.withDepth k) subquery g param t =
      resolveClauses env subquery g param t := by
  have hselect : resolveSelect (env.withDepth k) subquery g param t.select =
      resolveSelect env subquery g param t.select := by
    cases t.select with
    | none => rfl
    | some s =>
      simp only [resolveSelect, resolveSelectItems_withDepth]
      rfl
  simp only [resolveClauses, hselect]
  rfl

/-- A query is resolved alike under all limits when its subqueries are. -/
theorem resolveQuery_withDepth : resolveQuery (env.withDepth k) subquery param q =
    resolveQuery env subquery param q := by
  simp only [resolveQuery, resolveFrom, resolveJoin_withDepth, resolveClauses_withDepth]
  rfl

end

/-! ## Subqueries -/

/-- Other select items with the same expressions. -/
theorem ClauseSet.depth_reselect {items : List SelectItem}
    (h : items.filterMap (·.expr?) = c.selectExprs) :
    ({ c with select := items } : ClauseSet).depth = c.depth := by
  simp only [ClauseSet.depth_eq, ClauseSet.rowExprs, ClauseSet.laterExprs, ClauseSet.selectExprs, h]

theorem depth_nameOutputs (names : AliasNames) : (nameOutputs names c).depth = c.depth :=
  ClauseSet.depth_reselect (nameOutputs_selectExprs names c)

/-- Without a select list, a query selects no expressions. -/
theorem selectExprs_eq_nil {t : ClauseTexts} {subquery : ResolveSubquery}
    (hg : graph.Sound env n) (ht : t.select = none)
    (h : (resolveClauses env subquery graph param t).Runs b c b') : c.selectExprs = [] := by
  obtain ⟨_, -, -, -, h, -⟩ := runs_resolveClauses h
  rw [ht] at h
  obtain ⟨hselect, -⟩ := runs_pure.1 h
  rw [ClauseSet.selectExprs, ← hselect, (allFields_spec hg).exprs]

theorem depth_selectKeys (hc : c.selectExprs = []) (hg : graph.Sound env n) :
    (selectKeys graph c).depth = c.depth :=
  ClauseSet.depth_reselect ((selectKeys_fieldsOnly (c := c) hg).exprs.trans hc.symm)

/-- The limit that is read where a subquery is entered is that of the subqueries inside it. -/
theorem resolveSubquery_withDepth (levels : Nat) :
    resolveSubquery (env.withDepth k) (levels + 1) inner param clause = (do
      let q ← ExceptT.mk (pure (Query.parse env.config.scanner inner))
      let (graph, c) ← Resolve.inScope
        (resolveQuery env (resolveSubquery (env.withDepth k) levels) param q)
      let c := if q.select.isNone then selectKeys graph c else c
      return ⟨graph, nameOutputs (← get).resolver.names c,
        graph.emissionOrder (AliasSet.ofList graph.aliases)⟩) := by
  simp only [resolveSubquery, resolveQuery_withDepth]
  rfl

theorem resolveSubquery_needs (env : Surroundings) (levels used : Nat)
    (h : used + levels = env.config.maxSubqueryDepth) :
    NeedsDepth env env.config.maxSubqueryDepth used
      fun k => resolveSubquery (env.withDepth k) (k - used) := by
  induction levels generalizing used with
  | zero =>
    intro inner param clause b b' s _ hrun
    dsimp only at hrun
    rw [← h, Nat.add_zero, Nat.sub_self] at hrun
    exact absurd hrun not_runs_malformed
  | succ levels ih =>
    intro inner param clause b b' s hb hrun
    dsimp only at hrun
    have hsub := ih (used + 1) (by omega)
    have hleft (k : Nat) (hk : used < k) : k - used = k - (used + 1) + 1 := by omega
    have hyields := resolveSubquery_yields env (env.config.maxSubqueryDepth - (used + 1))
    rw [hleft _ (by omega), resolveSubquery_withDepth] at hrun
    obtain ⟨q, _, h1, hrun⟩ := runs_bind.1 hrun
    obtain ⟨hparse, rfl⟩ := runs_lift.1 h1
    obtain ⟨⟨graph, c⟩, _, h2, h3⟩ := runs_bind.1 hrun
    obtain ⟨b₁, hquery, rfl⟩ := runs_inScope.1 h2
    obtain ⟨_, _, h4, h5⟩ := runs_bind.1 h3
    obtain ⟨rfl, rfl⟩ := runs_get.1 h4
    obtain ⟨rfl, rfl⟩ := runs_pure.1 h5
    have hread := Query.parse_spec hparse
    obtain ⟨T, off, hs⟩ := hread.balanced.exists_stands param
    have hres := resolveQuery_spec hyields hb.pushScope rfl hs hread hquery
    have hneeds := resolveQuery_needs hsub hyields hb.pushScope rfl hs hread hquery
    refine ⟨hres.grows.popScope, ?_⟩
    have hkeys : (if q.select.isNone then selectKeys graph c else c).depth = c.depth := by
      split
      · rename_i hnone
        obtain ⟨b₂, -, hclauses⟩ := runs_resolveQuery hquery
        exact depth_selectKeys
          (selectExprs_eq_nil hres.sound (Option.isNone_iff_eq_none.1 hnone) hclauses) hres.sound
      · rfl
    rw [Subquery.depth, depth_nameOutputs, hkeys]
    have hzero : resolveSubquery (env.withDepth used) (used - used) inner param clause =
        Resolve.malformed clause (.nestedTooDeep used) := by
      rw [Nat.sub_self]
      rfl
    have hbody (k : Nat) (hk : used < k) :=
      (congrArg (resolveSubquery (env.withDepth k) · inner param clause) (hleft k hk)).trans
        (resolveSubquery_withDepth _)
    exact .enter hzero (.congr hbody (.const_bind h1 (hneeds.inScope.bind_const h3)))

/-! ## Default orderings -/

/-- The depth of an `ORDER BY` list. -/
abbrev orderDepth (ts : List OrderTerm) : Nat := Expr.depthAll (ts.map (·.expr))

/-- The order terms with that of one item of an ordering. -/
def appendItem (env : Surroundings) (subquery : ResolveSubquery) (id : AliasId) (ordering : Text)
    (terms : List OrderTerm) (item : Item) : Resolve (List OrderTerm) := do
  let bound ← Resolve.scanning .orderBy (env.config.scanner.placeholders item.text)
  if 0 < bound then Resolve.malformed .orderBy (.boundOrdering ordering)
  else
    let term ← resolveOrderItem env subquery { default := some id } true ⟨item.text, 0⟩
    if terms.any (fun t => t.expr = term.expr) then return terms else return terms ++ [term]

/-- A term that is there already is as deep as it is there. -/
theorem appendItem_needs {id : AliasId} {ordering : Text} {i : Item} {ts ts' : List OrderTerm}
    (hsub : NeedsDepth env limit used sub) (hb : b.Sound env)
    (h : (appendItem env (sub limit) id ordering ts i).Runs b ts' b') : b'.Sound env ∧
      ∃ n, NeedsLevels used n (fun k => appendItem env (sub k) id ordering ts i) b ts' b' ∧
        orderDepth ts' = max (orderDepth ts) n := by
  obtain ⟨bound, _, h1, h⟩ := runs_bind.1 h
  obtain ⟨-, rfl⟩ := runs_scanning.1 h1
  split at h
  · exact absurd h not_runs_malformed
  rename_i hbound
  obtain ⟨t, b₁, h2, h3⟩ := runs_bind.1 h
  obtain ⟨hext, ht⟩ := resolveOrderItem_needs hsub hb h2
  have hneeds : NeedsLevels used t.expr.depth
      (fun k => appendItem env (sub k) id ordering ts i) b ts' b' := by
    refine .const_bind h1 ?_
    simp only [if_neg hbound]
    exact ht.bind_const h3
  split at h3
  · rename_i hany
    obtain ⟨rfl, rfl⟩ := runs_pure.1 h3
    obtain ⟨u, hu, he⟩ := List.any_eq_true.1 hany
    refine ⟨hext.sound, _, hneeds, (Nat.max_eq_left ?_).symm⟩
    rw [← of_decide_eq_true he]
    exact Expr.depth_le_depthAll (List.mem_map_of_mem hu)
  · obtain ⟨rfl, rfl⟩ := runs_pure.1 h3
    refine ⟨hext.sound, _, hneeds, ?_⟩
    simp [orderDepth]

theorem appendOrdering_needs {id : AliasId} {ordering : Text} {ts ts' : List OrderTerm}
    (hsub : NeedsDepth env limit used sub) (hb : b.Sound env)
    (h : (appendOrdering env (sub limit) ts id ordering).Runs b ts' b') : b'.Sound env ∧
      ∃ n, NeedsLevels used n (fun k => appendOrdering env (sub k) ts id ordering) b ts' b' ∧
        orderDepth ts' = max (orderDepth ts) n := by
  obtain ⟨items, _, h1, h2⟩ := runs_bind.1 h
  obtain ⟨-, rfl⟩ := runs_lift.1 h1
  obtain ⟨hb', n, hn, hdepth⟩ := NeedsLevels.foldlM orderDepth (I := fun _ b => b.Sound env)
    (g := fun k => appendItem env (sub k) id ordering) hb
    (fun _ _ _ _ _ _ hb h => appendItem_needs hsub hb h) h2
  exact ⟨hb', n, .const_bind h1 hn, hdepth⟩

theorem appendDefaultOrdering_needs {emitted : List AliasId} {c' : ClauseSet}
    (hsub : NeedsDepth env limit used sub) (hb : b.Sound env)
    (h : (appendDefaultOrdering env (sub limit) graph emitted c).Runs b c' b') :
    ∃ n, NeedsLevels used n (fun k => appendDefaultOrdering env (sub k) graph emitted c) b c' b' ∧
      c'.depth = max c.depth n := by
  obtain ⟨ts, _, h1, h2⟩ := runs_bind.1 h
  obtain ⟨rfl, rfl⟩ := runs_pure.1 h2
  obtain ⟨-, n, hn, hdepth⟩ := NeedsLevels.foldlM orderDepth (I := fun _ b => b.Sound env)
    (g := fun k terms (o : AliasId × String) => appendOrdering env (sub k) terms o.1 o.2.toList) hb
    (fun _ _ _ _ _ _ hb h => appendOrdering_needs hsub hb h) h1
  refine ⟨n, hn.bind_const h2, ?_⟩
  simp only [ClauseSet.depth_eq, ClauseSet.rowExprs, ClauseSet.laterExprs, ClauseSet.selectExprs,
    Expr.depthAll_append, hdepth, Nat.max_assoc]

/-! ## Plans -/

theorem planQuery_withDepth : planQuery (env.withDepth k) q = (do
    let subquery := resolveSubquery (env.withDepth k) k
    let (graph, c) ← resolveQuery env subquery 0 q
    let emitted := emittedAliases env.config graph c
    let c ← appendDefaultOrdering env subquery graph emitted c
    let resolver := (← get).resolver
    let c := nameOutputs resolver.names (completeSelection graph emitted c)
    let fanOut := (emitted.filterMap graph.node?).any (·.isFanOut)
    let shadow := if fanOut && c.isLimited then some (resolver.shadow emitted).1 else none
    return ⟨resolver.names, shadow, graph, c, emitted, q.placeholders⟩) := by
  simp only [planQuery, resolveQuery_withDepth]
  rfl

/-- A query needs as many levels as its plan is deep. -/
theorem planQuery_needs {p : QueryPlan} (hparse : Query.parse env.config.scanner T = .ok q)
    (h : (planQuery env q).Runs {} p b') :
    NeedsLevels 0 p.depth (fun k => planQuery (env.withDepth k) q) {} p b' := by
  have hread := Query.parse_spec hparse
  have hyields := resolveSubquery_yields env env.config.maxSubqueryDepth
  have hsub := resolveSubquery_needs env env.config.maxSubqueryDepth 0 (Nat.zero_add _)
  obtain ⟨⟨graph, c⟩, b₁, h1, hrest⟩ := runs_bind.1 h
  obtain ⟨c', b₂, h2, h3⟩ := runs_bind.1 hrest
  have hres := resolveQuery_spec hyields .empty rfl (.refl hread.balanced) hread h1
  have hquery := resolveQuery_needs hsub hyields .empty rfl (.refl hread.balanced) hread h1
  obtain ⟨n, hn, hdepth⟩ := appendDefaultOrdering_needs hsub hres.grows.sound h2
  obtain ⟨-, -, hc'⟩ := appendDefaultOrdering_spec hyields hres.grows.sound hres.sound h2
  have hall : NeedsLevels 0 (max (max graph.depth c.depth) n)
      (fun k => planQuery (env.withDepth k) q) {} p b' := by
    simp only [planQuery_withDepth]
    exact hquery.bind (hn.bind_const h3)
  obtain ⟨_, _, h4, h5⟩ := runs_bind.1 h3
  obtain ⟨rfl, rfl⟩ := runs_get.1 h4
  obtain ⟨rfl, rfl⟩ := runs_pure.1 h5
  have hselect : (completeSelection graph (emittedAliases env.config graph c) c').selectExprs =
      c'.selectExprs := by
    refine (completeSelection_spec _ hres.sound.derived ?_).1
    rw [hc']
    exact hres.origin.fields
  have hclauses : (completeSelection graph (emittedAliases env.config graph c) c').depth =
      c'.depth := ClauseSet.depth_reselect hselect
  rwa [QueryPlan.depth, depth_nameOutputs, hclauses, hdepth, ← Nat.max_assoc]

/-- The limit on the nesting of subqueries decides whether a query is planned, and nothing else. A
plan that is made under some limit is no deeper than that, it is made alike under every limit that
is no less than its depth, and under every other limit the query is malformed since its subqueries
are nested too deep. -/
theorem plan_depth {p : QueryPlan} (h : plan env T = .ok p) :
    p.depth ≤ env.config.maxSubqueryDepth ∧
      (∀ k, p.depth ≤ k → plan (env.withDepth k) T = .ok p) ∧
      ∀ k < p.depth, ∃ clause,
        plan (env.withDepth k) T = .error (.malformed clause (.nestedTooDeep k)) := by
  obtain ⟨q, hparse, h⟩ := Except.bind_eq_ok.1 h
  have hrun : (planQuery env q).Runs {} p ((planQuery env q).run {}).2 := Prod.ext h rfl
  have hneeds := planQuery_needs hparse hrun
  have hplan (k : Nat) : plan (env.withDepth k) T = ((planQuery (env.withDepth k) q).run {}).1 := by
    rw [plan, show Query.parse (env.withDepth k).config.scanner T = .ok q from hparse]
    rfl
  refine ⟨?_, fun k hk => ?_, fun k hk => ?_⟩
  · have := hneeds.le_of_runs (Nat.zero_le _) hrun
    rwa [Nat.zero_add] at this
  · rw [hplan, show (planQuery (env.withDepth k) q).run {} = _ from
      hneeds.runs k (by rwa [Nat.zero_add])]
  · rw [hplan]
    exact hneeds.error k (Nat.zero_le _) (by rwa [Nat.zero_add])

/-- Users among users among users. -/
def Sample.nestedTwice : Text :=
  ("FROM User u WHERE u.id IN (SELECT v.id FROM User v WHERE v.id IN " ++
    "(SELECT w.id FROM User w))").toList

/-- A limit of two is enough, as good as any greater one, and a limit of one is not. -/
theorem plan_depth_nestedTwice : ∃ p,
    plan (Sample.compiler.toSurroundings.withDepth 2) Sample.nestedTwice = .ok p ∧ p.depth = 2 ∧
      plan (Sample.compiler.toSurroundings.withDepth 16) Sample.nestedTwice = .ok p ∧
      ∃ clause, plan (Sample.compiler.toSurroundings.withDepth 1) Sample.nestedTwice =
        .error (.malformed clause (.nestedTooDeep 1)) := by
  obtain ⟨⟨p, hp, -⟩, hone⟩ :
      (∃ p, plan (Sample.compiler.toSurroundings.withDepth 2) Sample.nestedTwice = .ok p ∧ True) ∧
      ¬∃ p, plan (Sample.compiler.toSurroundings.withDepth 1) Sample.nestedTwice = .ok p ∧ True := by
    decide +kernel
  obtain ⟨hle, hruns, herror⟩ := plan_depth hp
  have hlt : 1 < p.depth := Nat.lt_of_not_le fun h => hone ⟨p, hruns 1 h, trivial⟩
  have hdepth : p.depth = 2 := Nat.le_antisymm hle hlt
  exact ⟨p, hp, hdepth, hruns 16 (hle.trans (by decide)), herror 1 hlt⟩

end ObjectQuery
