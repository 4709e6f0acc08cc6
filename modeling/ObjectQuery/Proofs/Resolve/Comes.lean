import ObjectQuery.Proofs.Resolve.Clauses
import ObjectQuery.Proofs.Resolve.Outcomes

/-! # What a resolution comes to

`Resolve.Comes y c x b` says that running `x` from the bindings `b` comes to running `y` from the
bindings `c`: all that is done before succeeds. What is wrong with `y` then is what is wrong with `x`,
since a resolution stops at the first fault.

* `Resolve.Comes.error`: the error of what a computation comes to is its error;
* `ExprTask.Reaches`: an expression is resolved up to one of its fragments;
* `FromList.Reaches`: a `FROM` clause is resolved up to the condition of a join. -/

namespace ObjectQuery

namespace Resolve

variable {α β γ : Type} {x : Resolve α} {y : Resolve β} {z : Resolve γ} {b b' c d : Bindings}

/-- Running `x` from the bindings `b` comes to running `y` from the bindings `c`. -/
inductive Comes {β : Type} (y : Resolve β) (c : Bindings) : {α : Type} → Resolve α → Bindings → Prop
  | here : Comes y c y c
  | first {α γ : Type} {x : Resolve α} {f : α → Resolve γ} {b : Bindings} (h : Comes y c x b) :
    Comes y c (x >>= f) b
  | next {α γ : Type} {x : Resolve α} {f : α → Resolve γ} {a : α} {b b' : Bindings}
    (hx : x.Runs b a b') (h : Comes y c (f a) b') : Comes y c (x >>= f) b
  | within {α : Type} {x : Resolve α} {b : Bindings}
    (h : Comes y c x { b with resolver := b.resolver.pushScope }) : Comes y c (inScope x) b

namespace Comes

theorem trans (h : Comes y c x b) (h' : Comes z d y c) : Comes z d x b := by
  induction h with
  | here => exact h'
  | first _ ih => exact .first ih
  | next hx _ ih => exact .next hx ih
  | within _ ih => exact .within ih

/-- The error of what a computation comes to is the error of the computation. -/
theorem error {e : QueryError} (h : Comes y c x b) (hy : (y.run c).1 = .error e) :
    (x.run b).1 = .error e := by
  induction h with
  | here => exact hy
  | @first _ _ x _ b _ ih =>
    have hrun : x.run b = (.error e, (x.run b).2) := Prod.ext ih rfl
    rw [run_bind_of_error hrun]
  | next hx _ ih =>
    rw [run_bind_of_runs hx]
    exact ih
  | within _ ih =>
    rw [run_inScope]
    exact ih

theorem not_runs {e : QueryError} {a : α} (h : Comes y c x b) (hy : (y.run c).1 = .error e) :
    ¬x.Runs b a b' := by
  intro hr
  have herror := h.error hy
  rw [show x.run b = (.ok a, b') from hr] at herror
  cases herror

theorem map {g : α → γ} (h : Comes y c x b) : Comes y c (g <$> x) b := by
  rw [map_eq_pure_bind]
  exact .first h

end Comes

/-! ## Lists -/

theorem comes_foldlM {g : β → α → Resolve β} {before after : List α} {a : α} {s s' : β}
    (h : (before.foldlM g s).Runs b s' b') :
    Comes (g s' a) b' ((before ++ a :: after).foldlM g s) b := by
  rw [List.foldlM_append]
  refine .next h ?_
  rw [List.foldlM_cons]
  exact .first .here

/-- When a list is run through, its elements are come to one after the other. -/
theorem comes_mapM {f : α → Resolve β} {P : Bindings → Prop} {as : List α} {a : α} {rs : List β}
    (hP : ∀ a b r b', P b → (f a).Runs b r b' → P b') (hb : P b) (h : (as.mapM f).Runs b rs b')
    (ha : a ∈ as) :
    ∃ c r d, P c ∧ (f a).Runs c r d ∧ Comes (f a) c (as.mapM f) b := by
  induction as generalizing b rs with
  | nil => cases ha
  | cons a' as ih =>
    obtain ⟨r, b₁, rs', h1, h2, rfl⟩ := runs_mapM_cons.1 h
    rw [List.mapM_cons]
    rcases List.mem_cons.1 ha with rfl | ha
    · exact ⟨b, r, b₁, hb, h1, .first .here⟩
    · obtain ⟨c, r, d, hc, hr, hcomes⟩ := ih (hP _ _ _ _ hb h1) h2 ha
      exact ⟨c, r, d, hc, hr, .next h1 (.first hcomes)⟩

end Resolve

open Resolve

variable {env : Surroundings} {subquery : ResolveSubquery} {clause : Clause} {bare : BareWords}
  {join : Option JoinScope} {param : Nat} {b b' c d : Bindings} {s : Scanner}

/-! ## Expressions -/

/-- The ordinal of the first placeholder after some fragments. -/
def Fragment.ordinalAfter (s : Scanner) (param : Nat) (fs : List Fragment) : Nat :=
  param + (fs.map (·.placeholders s)).sum

theorem comes_fragment {fs gs : List Fragment} {f : Fragment} {ps : List Piece}
    (h : (resolveFragments s subquery clause bare join param fs).Runs b ps c) :
    Comes (f.resolve subquery clause bare join (Fragment.ordinalAfter s param fs)) c
      (resolveFragments s subquery clause bare join param (fs ++ f :: gs)) b := by
  induction fs generalizing param b ps with
  | nil =>
    obtain ⟨-, rfl⟩ := runs_pure.1 h
    exact .first .here
  | cons f' fs ih =>
    obtain ⟨_, b₁, _, h1, h2, -⟩ := runs_resolveFragments_cons h
    have := ih h2
    rw [Fragment.ordinalAfter, Nat.add_assoc, ← List.sum_cons, ← List.map_cons] at this
    exact .next h1 (.first this)

/-- When fragments are resolved, each is come to. -/
theorem runs_fragment {fs gs : List Fragment} {f : Fragment} {ps : List Piece}
    (h : (resolveFragments s subquery clause bare join param (fs ++ f :: gs)).Runs b ps b') :
    ∃ qs c rs d, (resolveFragments s subquery clause bare join param fs).Runs b qs c ∧
      (f.resolve subquery clause bare join (Fragment.ordinalAfter s param fs)).Runs c rs d := by
  induction fs generalizing param b b' ps with
  | nil =>
    obtain ⟨rs, d, h1, -⟩ := runs_bind.1 h
    exact ⟨[], b, rs, d, runs_pure.2 ⟨rfl, rfl⟩, h1⟩
  | cons f' fs ih =>
    obtain ⟨qs, b₁, _, h1, h2, -⟩ := runs_resolveFragments_cons h
    obtain ⟨qs', c, rs, d, h3, h4⟩ := ih h2
    rw [Fragment.ordinalAfter, Nat.add_assoc, ← List.sum_cons, ← List.map_cons] at h4
    refine ⟨qs ++ qs', c, rs, d, runs_bind.2 ⟨qs, b₁, h1, ?_⟩, h4⟩
    exact runs_bind.2 ⟨qs', c, h3, runs_pure.2 ⟨rfl, rfl⟩⟩

/-- An expression that is to be resolved: its text with the ordinal of its first placeholder, and what
its words may stand for. -/
structure ExprTask where
  clause : Clause
  bare : BareWords
  join : Option JoinScope
  param : Nat
  text : Text

namespace ExprTask

/-- Resolves the expression. -/
def resolve (env : Surroundings) (subquery : ResolveSubquery) (x : ExprTask) : Resolve Expr :=
  resolveExpr env.config.scanner subquery x.clause x.bare x.join x.param x.text

/-- Resolves one fragment of the expression, which comes after the fragments `fs`. -/
def resolveFragment (env : Surroundings) (subquery : ResolveSubquery) (x : ExprTask)
    (fs : List Fragment) (f : Fragment) : Resolve (List Piece) :=
  f.resolve subquery x.clause x.bare x.join (Fragment.ordinalAfter env.config.scanner x.param fs)

/-- Resolving the expression from the bindings `c` comes to the fragment `f` after the fragments `fs`,
with the bindings `d`. -/
structure Reaches (env : Surroundings) (subquery : ResolveSubquery) (x : ExprTask)
    (c : Bindings) (fs : List Fragment) (f : Fragment) (d : Bindings) : Prop where
  valid : env.config.scanner.validate x.text = .ok ()
  fragments : ∃ gs, Fragment.ofText env.config.scanner x.text = fs ++ f :: gs
  before : ∃ ps, (resolveFragments env.config.scanner subquery x.clause x.bare x.join x.param
    fs).Runs c ps d

variable {x : ExprTask} {fs : List Fragment} {f : Fragment}

theorem Reaches.comes (h : x.Reaches env subquery c fs f d) :
    Comes (x.resolveFragment env subquery fs f) d (x.resolve env subquery) c := by
  obtain ⟨hvalid, ⟨gs, hgs⟩, ps, hps⟩ := h
  refine .next (runs_scanning.2 ⟨hvalid, rfl⟩) (.first ?_)
  rw [hgs]
  exact comes_fragment hps

/-- An expression that is resolved is so up to each of its fragments. -/
theorem reaches_of_runs {e : Expr} (hf : f ∈ Fragment.ofText env.config.scanner x.text)
    (h : (x.resolve env subquery).Runs c e b') : ∃ fs d ps d', x.Reaches env subquery c fs f d ∧
      (x.resolveFragment env subquery fs f).Runs d ps d' := by
  obtain ⟨hvalid, _, hrun, -⟩ := runs_resolveExpr h
  obtain ⟨fs, gs, hgs⟩ := List.append_of_mem hf
  rw [hgs] at hrun
  obtain ⟨qs, d, ps, d', hqs, hps⟩ := runs_fragment hrun
  exact ⟨fs, d, ps, d', ⟨hvalid, ⟨gs, hgs⟩, qs, hqs⟩, hps⟩

end ExprTask

/-! ## Conditions -/

section
variable {g g₁ : JoinGraph} {declared : List String} {j : Joined} {k : Condition}
  {start id : AliasId} {f : FromList} {before after : List Joined}

/-- The condition of a join, to be resolved. -/
def Joined.task (j : Joined) (declared : List String) (param : Nat) (k : Condition) : ExprTask :=
  ⟨.join, {}, some ⟨".".intercalate j.source.path, declared⟩, param + k.segment.firstParam,
    k.segment.text⟩

theorem runs_resolveStart_of_lookup? {head path : String}
    (hl : b.resolver.lookup? head = some start) (hg : g.contains start = true) :
    (resolveStart g declared path head).Runs b start b := by
  refine runs_bind.2 ⟨_, _, runs_lookup?.2 ⟨hl, rfl⟩, ?_⟩
  simp only [hg, if_true]
  exact runs_pure.2 ⟨rfl, rfl⟩

theorem comes_condition (hk : j.condition = some k)
    (hstart : b.resolver.lookup? (j.source.path.headD "") = some start)
    (hg : g.contains start = true) (hnew : b.resolver.lookupLocal? j.source.effectiveAlias = none)
    (hpath : (resolvePath env j.kind (j.source.path.headD "") j.source.effectiveAlias g start
      (j.source.path.headD "") (j.source.path.drop 1)).Runs b (g₁, id) c) :
    Comes ((j.task declared param k).resolve env subquery) c
      (resolveJoin env subquery param declared g j) b := by
  refine .next (runs_resolveStart_of_lookup? hstart hg) (.next (runs_get.2 ⟨rfl, rfl⟩) ?_)
  rw [hnew, Option.isSome_none, if_neg Bool.false_ne_true]
  refine .next hpath ?_
  rw [hk]
  exact .first .here

/-- Resolving the clause from the bindings `b` comes to the condition of the join `j` with the bindings
`c`: the joins `before` it are made, and so is the join itself. -/
inductive FromList.Reaches (env : Surroundings) (subquery : ResolveSubquery) (param : Nat)
    (f : FromList) (before : List Joined) (j : Joined) (b c : Bindings) : Prop
  | intro {g g₁ g₂ : JoinGraph} {b₁ b₂ : Bindings} {start id : AliasId}
    (hroot : (resolveRoot env f.root).Runs b g b₁)
    (hbefore : Runs (before.foldlM (resolveJoin env subquery param f.aliases) g) b₁ g₁ b₂)
    (hstart : b₂.resolver.lookup? (j.source.path.headD "") = some start)
    (hgraph : g₁.contains start = true)
    (hnew : b₂.resolver.lookupLocal? j.source.effectiveAlias = none)
    (hpath : (resolvePath env j.kind (j.source.path.headD "") j.source.effectiveAlias g₁ start
      (j.source.path.headD "") (j.source.path.drop 1)).Runs b₂ (g₂, id) c)

theorem FromList.Reaches.comes (h : f.Reaches env subquery param before j b c)
    (hj : f.joins = before ++ j :: after) (hk : j.condition = some k) :
    Comes ((j.task f.aliases param k).resolve env subquery) c (resolveFrom env subquery param f)
      b := by
  obtain ⟨hroot, hbefore, hstart, hgraph, hnew, hpath⟩ := h
  refine .next hroot ?_
  rw [hj]
  exact (comes_foldlM hbefore).trans (comes_condition hk hstart hgraph hnew hpath)

/-- A clause that is resolved is so up to the condition of each of its joins. -/
theorem FromList.reaches_of_runs (hj : f.joins = before ++ j :: after) (hk : j.condition = some k)
    (h : (resolveFrom env subquery param f).Runs b g b') :
    ∃ c e d, f.Reaches env subquery param before j b c ∧
      ((j.task f.aliases param k).resolve env subquery).Runs c e d := by
  obtain ⟨g₀, b₁, hroot, h⟩ := runs_bind.1 h
  rw [hj, List.foldlM_append] at h
  obtain ⟨g₁, b₂, hbefore, h⟩ := runs_bind.1 h
  obtain ⟨g₂, b₃, hjoin, -⟩ := runs_foldlM_cons.1 h
  obtain ⟨start, g₃, id, c, g₄, hstart, hgraph, hnew, hpath, hattaches, -⟩ := runs_resolveJoin hjoin
  cases hattaches with
  | nothing hnone =>
    rw [hk] at hnone
    cases hnone
  | condition hk' hrun =>
    cases hk.symm.trans hk'
    exact ⟨c, _, _, .intro hroot hbefore hstart hgraph hnew hpath, hrun⟩

end

end ObjectQuery
