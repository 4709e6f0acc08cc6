import ObjectQuery.Proofs.Resolve.Comes
import ObjectQuery.Proofs.Scope.Names

/-! # The expressions that a resolution visits

When the clauses of a query are resolved, each expression in them is come to with the aliases of the
query in scope (`Visits`). What stands for columns in a select list is no expression, and holds no
subquery.

* `ClauseTexts.Holds`: the expressions in the clauses of a query;
* `ClauseTexts.Holds.visits`: each of them is visited. -/

namespace ObjectQuery

open Resolve

variable {env : Surroundings} {subquery : ResolveSubquery} {clause : Clause} {bare : BareWords}
  {join : Option JoinScope} {param : Nat} {b b' c : Bindings} {graph : JoinGraph} {s : Scanner}
  {t inner : Text} {names : List String} {α β : Type} {y : Resolve α} {z : Resolve β} {a : α}

/-! ## Texts -/

/-- The texts between the commas of a clause, without the blanks around them. -/
def Segment.itemTexts (s : Scanner) (g : Segment) : List Text :=
  ((s.splitSpans g.text [',']).toOption.getD []).map fun w => (w.trimmed g.text).slice g.text

/-- The text of an expression in the clauses of a query: a clause, an item of a clause, or an item
without the name or the direction at its end. -/
inductive ClauseTexts.Holds (s : Scanner) (q : ClauseTexts) : Text → Prop
  | select {g : Segment} {i t : Text} {name : Option String} (hg : q.select = some g)
    (hi : i ∈ g.itemTexts s) (ht : splitAlias s i = .ok (t, name)) : Holds s q t
  | filter {g : Segment} (hg : q.filter = some g) : Holds s q g.text
  | groupBy {g : Segment} {i : Text} (hg : q.groupBy = some g) (hi : i ∈ g.itemTexts s) : Holds s q i
  | having {g : Segment} (hg : q.having = some g) : Holds s q g.text
  | orderBy {g : Segment} {i t : Text} {direction : Option String} (hg : q.orderBy = some g)
    (hi : i ∈ g.itemTexts s) (ht : splitDirection s i = .ok (t, direction)) : Holds s q t

theorem segmentItem_text {g : Segment} {w : Span} {i : Item}
    (h : segmentItem s clause param g w = .ok i) : i.text = (w.trimmed g.text).slice g.text := by
  simp only [segmentItem] at h
  split at h
  · cases h
  · obtain ⟨before, -, h⟩ := Except.bind_eq_ok.1 h
    cases h
    rfl

theorem segmentItems_text {g : Segment} {is : List Item}
    (h : segmentItems s clause param g = .ok is) : is.map (·.text) = g.itemTexts s := by
  obtain ⟨spans, hspans, his⟩ := Except.bind_eq_ok.1 h
  rw [Except.inClause_eq_ok] at hspans
  rw [Segment.itemTexts, hspans]
  change is.map (·.text) = spans.map fun w => (w.trimmed g.text).slice g.text
  clear h hspans
  induction Except.mapM_eq_ok.1 his with
  | nil => rfl
  | cons hi hrest ih =>
    rw [List.map_cons, List.map_cons, ih (Except.mapM_eq_ok.2 hrest), segmentItem_text hi]

/-- A tame text holds no subquery. -/
theorem Tame.not_subquery (h : Tame t) : .subquery inner ∉ Fragment.ofText s t := by
  intro hmem
  obtain ⟨l, r, rfl, -⟩ := Fragment.exists_of_subquery_mem h.neutral.1.run hmem
  exact absurd (h '(' (by simp)).1 (by decide)

theorem ColumnsOf.tame {items : List SelectItem} (hb : b.Shows names)
    (h : ColumnsOf b graph t items) : Tame t := by
  cases h with
  | all ht hl _ =>
    have hname := hb.tame hl
    rw [String.toList_ofList] at hname
    exact ht ▸ hname.append (by decide)
  | qualified ht | ofRoot ht => exact Text.tame_of_path? ht

/-! ## Visits -/

/-- Running `y` from the bindings `b` comes to resolving the expression `t` with the same aliases in
scope, and the expression is resolved. -/
def Visits (env : Surroundings) (subquery : ResolveSubquery) (b : Bindings) (t : Text)
    (y : Resolve α) : Prop :=
  ∃ (x : ExprTask) (c : Bindings) (e : Expr) (d : Bindings), x.text = t ∧ b.Keeps env c ∧
    (x.resolve env subquery).Runs c e d ∧ Comes (x.resolve env subquery) c y b

namespace Visits

theorem of_comes (hk : b.Keeps env c) (hy : Comes y c z b) (h : Visits env subquery c t y) :
    Visits env subquery b t z := by
  obtain ⟨x, d, e, d', ht, hkeeps, hrun, hcomes⟩ := h
  exact ⟨x, d, e, d', ht, hk.trans hkeeps, hrun, hy.trans hcomes⟩

theorem first {f : α → Resolve β} (hb : b.Tidy env) (h : Visits env subquery b t y) :
    Visits env subquery b t (y >>= f) :=
  h.of_comes (.refl hb) (.first .here)

theorem next {f : α → Resolve β} (hk : b.Keeps env b') (hy : y.Runs b a b')
    (h : Visits env subquery b' t (f a)) : Visits env subquery b t (y >>= f) :=
  h.of_comes hk (.next hy .here)

end Visits

theorem resolveExpr_visits {e : Expr} (hb : b.Tidy env)
    (h : (resolveExpr env.config.scanner subquery clause bare join param t).Runs b e b') :
    Visits env subquery b t (resolveExpr env.config.scanner subquery clause bare join param t) :=
  ⟨⟨clause, bare, join, param, t⟩, b, e, b', rfl, .refl hb, h, .here⟩

/-! ## The select list -/

theorem resolveSelectItem_keeps {ordinal : Nat} {i : Item} {items : List SelectItem}
    (hsub : subquery.Nests env) (hb : b.Tidy env)
    (h : (resolveSelectItem env subquery graph ordinal i).Runs b items b') : b.Keeps env b' :=
  (resolveSelectItem_over hsub hb (Set.subset_univ _) trivial h).1

theorem resolveSelectItem_visits {ordinal : Nat} {i : Item} {items : List SelectItem}
    {name : Option String} (hb : b.Tidy env) (hshows : b.Shows names)
    (ht : splitAlias env.config.scanner i.text = .ok (t, name))
    (hinner : .subquery inner ∈ Fragment.ofText env.config.scanner t)
    (h : (resolveSelectItem env subquery graph ordinal i).Runs b items b') :
    Visits env subquery b t (resolveSelectItem env subquery graph ordinal i) := by
  obtain ⟨_, _, h1, h⟩ := runs_bind.1 h
  obtain ⟨ht', rfl⟩ := runs_scanning.1 h1
  cases Except.ok.inj (ht'.symm.trans ht)
  refine .next (.refl hb) h1 ?_
  have hexpr {items : List SelectItem} (h : Runs (do
      let expr ← resolveExpr env.config.scanner subquery .select {} none i.param t
      return [.expression (graph.ownerOf expr) ordinal expr name]) b items b') :
      Visits env subquery b t (do
        let expr ← resolveExpr env.config.scanner subquery .select {} none i.param t
        return [SelectItem.expression (graph.ownerOf expr) ordinal expr name]) := by
    obtain ⟨e, b₁, h2, -⟩ := runs_bind.1 h
    exact (resolveExpr_visits hb h2).first hb
  dsimp only at h ⊢
  by_cases hname : name.isSome = true
  · rw [if_pos hname] at h ⊢
    exact hexpr h
  · rw [if_neg hname] at h ⊢
    obtain ⟨fields, _, h2, h3⟩ := runs_bind.1 h
    obtain ⟨rfl, hcolumns⟩ := runs_resolveFields h2
    refine .next (.refl hb) h2 ?_
    cases fields with
    | some items => exact absurd hinner ((hcolumns items rfl).tame hshows).not_subquery
    | none => exact hexpr h3

theorem resolveSelectItems_visits {ordinal : Nat} {is : List Item} {items : List SelectItem}
    {i : Text} {name : Option String} (hsub : subquery.Nests env) (hb : b.Tidy env)
    (hshows : b.Shows names) (hi : i ∈ is.map (·.text))
    (ht : splitAlias env.config.scanner i = .ok (t, name))
    (hinner : .subquery inner ∈ Fragment.ofText env.config.scanner t)
    (h : (resolveSelectItems env subquery graph ordinal is).Runs b items b') :
    Visits env subquery b t (resolveSelectItems env subquery graph ordinal is) := by
  induction is generalizing ordinal items b b' with
  | nil => cases hi
  | cons i' is ih =>
    obtain ⟨first, b₁, h1, h⟩ := runs_bind.1 h
    obtain ⟨rest, b₂, h2, -⟩ := runs_bind.1 h
    rcases List.mem_cons.1 hi with rfl | hi
    · exact (resolveSelectItem_visits hb hshows ht hinner h1).first hb
    · have hk := resolveSelectItem_keeps hsub hb h1
      exact .next hk h1 ((ih hk.tidy (hshows.keeps hk) hi h2).first hk.tidy)

theorem resolveSelect_visits {g : Segment} {items : List SelectItem} {i : Text}
    {name : Option String} (hsub : subquery.Nests env) (hb : b.Tidy env) (hshows : b.Shows names)
    (hi : i ∈ g.itemTexts env.config.scanner)
    (ht : splitAlias env.config.scanner i = .ok (t, name))
    (hinner : .subquery inner ∈ Fragment.ofText env.config.scanner t)
    (h : (resolveSelect env subquery graph param (some g)).Runs b items b') :
    Visits env subquery b t (resolveSelect env subquery graph param (some g)) := by
  obtain ⟨is, _, h1, h2⟩ := runs_bind.1 h
  obtain ⟨his, rfl⟩ := runs_lift.1 h1
  rw [← segmentItems_text his] at hi
  exact .next (.refl hb) h1 (resolveSelectItems_visits hsub hb hshows hi ht hinner h2)

/-! ## The other clauses -/

theorem resolveCondition_visits {g : Segment} {e? : Option Expr} (hb : b.Tidy env)
    (h : (resolveCondition env subquery clause bare param (some g)).Runs b e? b') :
    Visits env subquery b g.text (resolveCondition env subquery clause bare param (some g)) := by
  obtain ⟨e, h1, -⟩ := runs_map.1 h
  exact (resolveExpr_visits hb h1).of_comes (.refl hb) (Comes.here.map)

theorem resolveList_visits {f : Item → Resolve α} {g : Segment} {as : List α} {i : Text}
    (hb : b.Tidy env) (hi : i ∈ g.itemTexts env.config.scanner)
    (hkeeps : ∀ i b a b', b.Tidy env → (f i).Runs b a b' → b.Keeps env b')
    (hf : ∀ j b a b', b.Tidy env → j.text = i → (f j).Runs b a b' → Visits env subquery b t (f j))
    (h : (resolveList env clause param f (some g)).Runs b as b') :
    Visits env subquery b t (resolveList env clause param f (some g)) := by
  obtain ⟨is, _, h1, h2⟩ := runs_bind.1 h
  obtain ⟨his, rfl⟩ := runs_lift.1 h1
  rw [← segmentItems_text his] at hi
  obtain ⟨j, hj, hji⟩ := List.mem_map.1 hi
  obtain ⟨c, a, d, hk, hrun, hcomes⟩ := comes_mapM (P := fun b' => b.Keeps env b')
    (fun i b₁ a b₂ hk hr => hk.trans (hkeeps i b₁ a b₂ hk.tidy hr)) (.refl hb) h2 hj
  exact (hf j c a d hk.tidy hji hrun).of_comes hk (.next h1 hcomes)

theorem resolveOrderItem_keeps {implicit : Bool} {i : Item} {o : OrderTerm}
    (hsub : subquery.Nests env) (hb : b.Tidy env)
    (h : (resolveOrderItem env subquery bare implicit i).Runs b o b') : b.Keeps env b' :=
  (resolveOrderItem_over hsub hb (.inr (Set.subset_univ _)) BareWords.within_univ h).1

theorem resolveOrderItem_visits {implicit : Bool} {i : Item} {o : OrderTerm}
    {direction : Option String} (hb : b.Tidy env)
    (ht : splitDirection env.config.scanner i.text = .ok (t, direction))
    (h : (resolveOrderItem env subquery bare implicit i).Runs b o b') :
    Visits env subquery b t (resolveOrderItem env subquery bare implicit i) := by
  obtain ⟨_, _, h1, h⟩ := runs_bind.1 h
  obtain ⟨ht', rfl⟩ := runs_scanning.1 h1
  cases Except.ok.inj (ht'.symm.trans ht)
  obtain ⟨e, b₁, h2, -⟩ := runs_bind.1 h
  exact .next (.refl hb) h1 ((resolveExpr_visits hb h2).first hb)

theorem resolveSelect_keeps {clause? : Option Segment} {items : List SelectItem}
    (hsub : subquery.Nests env) (hb : b.Tidy env)
    (h : (resolveSelect env subquery graph param clause?).Runs b items b') : b.Keeps env b' :=
  (resolveSelect_over hsub hb (Set.subset_univ _) trivial (fun _ _ => trivial) h).1

theorem resolveCondition_keeps {clause? : Option Segment} {e? : Option Expr}
    (hsub : subquery.Nests env) (hb : b.Tidy env)
    (h : (resolveCondition env subquery clause bare param clause?).Runs b e? b') :
    b.Keeps env b' :=
  (resolveCondition_over hsub hb (Set.subset_univ _) BareWords.within_univ h).1

/-- Every expression of the clauses that holds a subquery is visited. -/
theorem ClauseTexts.Holds.visits {q : ClauseTexts} {cs : ClauseSet} (hsub : subquery.Nests env)
    (hb : b.Tidy env) (hshows : b.Shows names) (hq : q.Holds env.config.scanner t)
    (hinner : .subquery inner ∈ Fragment.ofText env.config.scanner t)
    (h : (resolveClauses env subquery graph param q).Runs b cs b') :
    Visits env subquery b t (resolveClauses env subquery graph param q) := by
  obtain ⟨items, b₁, h1, hrest⟩ := runs_bind.1 h
  obtain ⟨filter, b₂, h2, hrest⟩ := runs_bind.1 hrest
  obtain ⟨groupBy, b₃, h3, hrest⟩ := runs_bind.1 hrest
  obtain ⟨having, b₄, h4, hrest⟩ := runs_bind.1 hrest
  obtain ⟨orderBy, b₅, h5, -⟩ := runs_bind.1 hrest
  have k₁ := resolveSelect_keeps hsub hb h1
  have k₂ := resolveCondition_keeps hsub k₁.tidy h2
  have k₃ := (resolveList_over (x := id) k₂.tidy (Set.subset_univ _) (fun _ _ _ _ hb _ h =>
    resolveExpr_over hsub hb (.inr (Set.subset_univ _)) BareWords.within_univ h) h3).1
  have k₄ := resolveCondition_keeps hsub k₃.tidy h4
  cases hq with
  | select hg hi ht =>
    rw [hg] at h1
    rw [resolveClauses, hg]
    exact (resolveSelect_visits hsub hb hshows hi ht hinner h1).first hb
  | filter hg =>
    rw [hg] at h2
    rw [resolveClauses, hg]
    exact .next k₁ h1 ((resolveCondition_visits k₁.tidy h2).first k₁.tidy)
  | groupBy hg hi =>
    rw [hg] at h3
    rw [resolveClauses, hg]
    refine .next k₁ h1 (.next k₂ h2 (.first k₂.tidy ?_))
    refine resolveList_visits k₂.tidy hi (fun _ _ _ _ hb h => resolveExpr_keeps hsub hb h) ?_ h3
    rintro j b a b' hb rfl hr
    exact resolveExpr_visits hb hr
  | having hg =>
    rw [hg] at h4
    rw [resolveClauses, hg]
    exact .next k₁ h1 (.next k₂ h2 (.next k₃ h3
      ((resolveCondition_visits k₃.tidy h4).first k₃.tidy)))
  | orderBy hg hi ht =>
    rw [hg] at h5
    rw [resolveClauses, hg]
    refine .next k₁ h1 (.next k₂ h2 (.next k₃ h3 (.next k₄ h4 (.first k₄.tidy ?_))))
    refine resolveList_visits k₄.tidy hi (fun _ _ _ _ hb h => resolveOrderItem_keeps hsub hb h) ?_ h5
    rintro j b a b' hb rfl hr
    exact resolveOrderItem_visits hb ht hr

end ObjectQuery
