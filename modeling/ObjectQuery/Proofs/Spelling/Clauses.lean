import ObjectQuery.Proofs.Resolve.Query
import ObjectQuery.Proofs.Spelling.From

/-! # How resolved clauses are spelled

The items of a select list are expressions and columns of components, taken over under the names of
their fields (`SelectedField.Drawn`); the other clauses are expressions. All their columns are
spelled well (`ClausesSpelled`).

* `resolveClauses_select_ne_nil`: a select list is not empty;
* `resolveClauses_spelled`: the clauses of a query;
* `ClausesSpelled.nameOutputs`, `ClausesSpelled.completeSelection`: completed and named lists;
* `appendDefaultOrdering_spelled`: the orderings of the schema. -/

namespace ObjectQuery

open Resolve

variable {env : Surroundings} {ok : Spelling} {subquery : ResolveSubquery} {clause : Clause}
  {bare : BareWords} {param : Nat} {b b' : Bindings} {graph : JoinGraph} {c : ClauseSet}
  {known known' : AliasId → Option Component} {visible : Set AliasId}
  {items : List SelectItem} {names : AliasNames} {id : AliasId} {ts ts' : List OrderTerm}

/-- The selected column is one of the component of a visible alias, under the name of its field. -/
structure SelectedField.Drawn (known : AliasId → Option Component) (visible : Set AliasId)
    (f : SelectedField) : Prop where
  visible : f.owner ∈ visible
  column : ∃ c, known f.owner = some c ∧ ∃ x ∈ c.columns, x.name = f.column ∧ x.fieldName = f.field

/-- The columns of a select item are spelled well. -/
def SelectItem.Spelled (known : AliasId → Option Component) (ok : Spelling)
    (visible : Set AliasId) : SelectItem → Prop
  | .field f => f.Drawn known visible
  | .expression _ _ e _ => e.Spelled known ok visible

/-- The columns of clauses are spelled well. -/
structure ClausesSpelled (known : AliasId → Option Component) (ok : Spelling)
    (visible : Set AliasId) (c : ClauseSet) : Prop where
  select : ∀ i ∈ c.select, i.Spelled known ok visible
  filter : ∀ e ∈ c.filter, e.Spelled known ok visible
  later : ∀ e ∈ c.laterExprs, e.Spelled known ok visible

/-- The nodes are visible, and their components are known. -/
def JoinGraph.Shown (known : AliasId → Option Component) (visible : Set AliasId)
    (g : JoinGraph) : Prop :=
  ∀ n ∈ g.nodes, n.id ∈ visible ∧ known n.id = some n.component

section
variable (hk : ∀ id component, known id = some component → known' id = some component)
include hk

theorem SelectItem.Spelled.mono {i : SelectItem} (h : i.Spelled known ok visible) :
    i.Spelled known' ok visible := by
  cases i with
  | field f =>
    obtain ⟨hv, component, hc, hx⟩ := h
    exact ⟨hv, component, hk _ _ hc, hx⟩
  | expression => exact Expr.Spelled.mono hk le_rfl h

theorem JoinGraph.Shown.mono (h : graph.Shown known visible) : graph.Shown known' visible :=
  fun n hn => ⟨(h n hn).1, hk _ _ (h n hn).2⟩

end

theorem JoinGraph.Placed.shown (h : graph.Placed env ok b) :
    graph.Shown b.component? ({a | a ∈ graph.aliases} ∪ AliasScope.bound b.resolver.outer) :=
  fun n hn => ⟨.inl (show n.id ∈ graph.aliases from List.mem_map_of_mem hn), h.components n hn⟩

/-- A query is spelled well when its joins and clauses are. -/
theorem ClausesSpelled.spelledQuery (hok : env.Spells ok) (hg : graph.Placed env ok b)
    (h : ClausesSpelled b.component? ok
      ({a | a ∈ graph.aliases} ∪ AliasScope.bound b.resolver.outer) c) :
    SpelledQuery b.component? ok (AliasScope.bound b.resolver.outer) graph c := by
  have hdescribed {id : AliasId} {component : Component}
      (hc : b.component? id = some component) := hg.recorded.describes hc
  refine .of_exprs hg.components (fun f hf => ?_) (fun e he => ?_) ?_
  · obtain ⟨hv, component, hc, x, hx, he, -⟩ := h.select _ hf
    exact ⟨hv, component, hc, he ▸ hok.column _ (hdescribed hc) x hx⟩
  · simp only [queryExprs, ClauseSet.rowExprs, List.mem_append, Option.mem_toList,
      List.mem_flatMap] at he
    obtain ((he | he) | he) | ⟨n, hn, he⟩ := he
    · obtain ⟨i, hi, hie⟩ := List.mem_filterMap.1 he
      have hi := h.select i hi
      cases i with
      | field => cases hie
      | expression =>
        cases hie
        exact hi
    · exact h.filter e he
    · exact h.later e he
    · exact hg.exprs n hn e he
  · exact hok.test _ (hdescribed (hg.components graph.root List.mem_cons_self))

/-! ## The select list -/

theorem spelled_ofColumns {component : Component} {columns : List Column} {implicit : Bool}
    (hid : id ∈ visible) (hc : known id = some component)
    (hcols : ∀ x ∈ columns, x ∈ component.columns) :
    ∀ i ∈ columns.map fun x => SelectItem.ofColumn id x implicit, i.Spelled known ok visible := by
  intro i hi
  obtain ⟨x, hx, rfl⟩ := List.mem_map.1 hi
  exact ⟨hid, component, hc, x, hcols x hx, rfl, rfl⟩

theorem ColumnsOf.spelled {t : Text} (hseen : b.Sees ⊆ visible)
    (hg : graph.Shown b.component? visible) (h : ColumnsOf b graph t items) :
    ∀ i ∈ items, i.Spelled b.component? ok visible := by
  cases h with
  | all ht hl hc =>
    exact spelled_ofColumns (hseen (Bindings.sees_of_lookup? hl)) hc fun _ hx => hx
  | qualified ht hl hc hcol =>
    exact List.forall_mem_singleton.2 ⟨hseen (Bindings.sees_of_lookup? hl), _, hc, _,
      Component.mem_of_column? hcol, rfl, rfl⟩
  | ofRoot ht hcol =>
    obtain ⟨hid, hc⟩ := hg graph.root List.mem_cons_self
    exact List.forall_mem_singleton.2 ⟨hid, _, hc, _, Component.mem_of_column? hcol, rfl, rfl⟩

section
variable (hcols : ∀ component, env.Describes component → component.columns ≠ [])
include hcols

theorem ColumnsOf.ne_nil {t : Text} (hb : b.Recorded env) (h : ColumnsOf b graph t items) :
    items ≠ [] := by
  cases h with
  | all ht hl hc => exact fun hnil => hcols _ (hb.describes hc) (List.map_eq_nil_iff.1 hnil)
  | qualified | ofRoot => exact List.cons_ne_nil _ _

theorem resolveSelect_ne_nil {clause? : Option Segment} (hb : b.Recorded env)
    (hg : graph.Shown b.component? visible) (hroot : graph.root.role ≠ .bridge)
    (h : (resolveSelect env subquery graph param clause?).Runs b items b') : items ≠ [] := by
  cases clause? with
  | none =>
    obtain ⟨rfl, rfl⟩ := runs_pure.1 h
    -- the root alone has a column
    have hcolumns := hcols _ (hb.describes (hg graph.root List.mem_cons_self).2)
    obtain ⟨x, hx⟩ := List.exists_mem_of_ne_nil _ hcolumns
    refine List.ne_nil_of_mem (List.mem_flatMap.2 ⟨graph.root, ?_, List.mem_map_of_mem hx⟩)
    exact List.mem_filter.2 ⟨List.mem_cons_self, bne_iff_ne.2 hroot⟩
  | some g =>
    obtain ⟨is, hitems, h⟩ := runs_resolveSelect_some h
    cases is with
    | nil => exact absurd rfl (segmentItems_ne_nil hitems)
    | cons i is =>
      obtain ⟨first, _, rest, h3, -, rfl⟩ := runs_resolveSelectItems_cons h
      refine List.append_ne_nil_of_left_ne_nil ?_ rest
      obtain ⟨u, name, -, ⟨-, hcolumns⟩ | ⟨e, -, rfl⟩⟩ := runs_resolveSelectItem h3
      · exact hcolumns.ne_nil hcols hb
      · exact List.cons_ne_nil _ _

theorem resolveClauses_select_ne_nil {q : ClauseTexts} (hb : b.Recorded env)
    (hg : graph.Shown b.component? visible) (hroot : graph.root.role ≠ .bridge)
    (h : (resolveClauses env subquery graph param q).Runs b c b') : c.select ≠ [] := by
  obtain ⟨_, -, -, -, h, -⟩ := runs_resolveClauses h
  exact resolveSelect_ne_nil hcols hb hg hroot h

end

section
variable (hok : env.Spells ok) (hsub : subquery.Spells env ok)
include hok hsub

theorem resolveSelectItem_spelled {ordinal : Nat} {i : Item} (hb : b.Recorded env)
    (hseen : b.Sees ⊆ visible) (hg : graph.Shown b.component? visible)
    (h : (resolveSelectItem env subquery graph ordinal i).Runs b items b') :
    b.Steady env b' ∧ ∀ j ∈ items, j.Spelled b'.component? ok visible := by
  obtain ⟨u, name, -, hres⟩ := runs_resolveSelectItem h
  rcases hres with ⟨rfl, hcolumns⟩ | ⟨e, hrun, rfl⟩
  · exact ⟨.refl hb, hcolumns.spelled hseen hg⟩
  · obtain ⟨hsteady, he⟩ :=
      resolveExpr_spelled hok hsub hb hseen (fun _ hid => by cases hid) hrun
    exact ⟨hsteady, List.forall_mem_singleton.2 he⟩

theorem resolveSelectItems_spelled {ordinal : Nat} {is : List Item} (hb : b.Recorded env)
    (hseen : b.Sees ⊆ visible) (hg : graph.Shown b.component? visible)
    (h : (resolveSelectItems env subquery graph ordinal is).Runs b items b') :
    b.Steady env b' ∧ ∀ j ∈ items, j.Spelled b'.component? ok visible := by
  induction is generalizing ordinal items b with
  | nil =>
    obtain ⟨rfl, rfl⟩ := runs_pure.1 h
    exact ⟨.refl hb, nofun⟩
  | cons i is ih =>
    obtain ⟨first, b₁, rest, h1, h2, rfl⟩ := runs_resolveSelectItems_cons h
    obtain ⟨hsteady, hf⟩ := resolveSelectItem_spelled hok hsub hb hseen hg h1
    obtain ⟨hsteady', hf'⟩ :=
      ih hsteady.recorded (hsteady.sees_eq ▸ hseen) (hg.mono hsteady.components) h2
    exact ⟨hsteady.trans hsteady',
      List.forall_mem_append.2 ⟨fun j hj => (hf j hj).mono hsteady'.components, hf'⟩⟩

theorem resolveSelect_spelled {clause? : Option Segment} (hb : b.Recorded env)
    (hseen : b.Sees ⊆ visible) (hg : graph.Shown b.component? visible)
    (h : (resolveSelect env subquery graph param clause?).Runs b items b') :
    b.Steady env b' ∧ ∀ j ∈ items, j.Spelled b'.component? ok visible := by
  cases clause? with
  | none =>
    obtain ⟨rfl, rfl⟩ := runs_pure.1 h
    refine ⟨.refl hb, fun i hi => ?_⟩
    obtain ⟨n, hn, hi⟩ := List.mem_flatMap.1 hi
    obtain ⟨hid, hc⟩ := hg n (List.mem_filter.1 hn).1
    exact spelled_ofColumns hid hc (fun _ hx => hx) i hi
  | some g =>
    obtain ⟨is, -, h⟩ := runs_resolveSelect_some h
    exact resolveSelectItems_spelled hok hsub hb hseen hg h

/-! ## The other clauses -/

theorem resolveCondition_spelled {clause? : Option Segment} {e? : Option Expr}
    (hb : b.Recorded env) (hseen : b.Sees ⊆ visible) (hbare : ∀ id ∈ bare.default, id ∈ visible)
    (h : (resolveCondition env subquery clause bare param clause?).Runs b e? b') :
    b.Steady env b' ∧ ∀ e ∈ e?, e.Spelled b'.component? ok visible := by
  cases clause? with
  | none =>
    obtain ⟨rfl, rfl⟩ := runs_pure.1 h
    exact ⟨.refl hb, nofun⟩
  | some g =>
    obtain ⟨e, h1, rfl⟩ := runs_map.1 h
    obtain ⟨hsteady, he⟩ := resolveExpr_spelled hok hsub hb hseen hbare h1
    refine ⟨hsteady, ?_⟩
    rintro _ ⟨⟩
    exact he

theorem resolveOrderItem_spelled {implicit : Bool} {i : Item} {t : OrderTerm}
    (hb : b.Recorded env) (hseen : b.Sees ⊆ visible) (hbare : ∀ id ∈ bare.default, id ∈ visible)
    (h : (resolveOrderItem env subquery bare implicit i).Runs b t b') :
    b.Steady env b' ∧ t.expr.Spelled b'.component? ok visible := by
  obtain ⟨u, direction, e, -, hrun, rfl⟩ := runs_resolveOrderItem h
  exact resolveExpr_spelled hok hsub hb hseen hbare hrun

end

theorem resolveList_spelled {α : Type} {f : Item → Resolve α} {x : α → Expr}
    {clause? : Option Segment} {as : List α} (hb : b.Recorded env) (hseen : b.Sees ⊆ visible)
    (hf : ∀ i b a b', b.Recorded env → b.Sees ⊆ visible → (f i).Runs b a b' →
      b.Steady env b' ∧ (x a).Spelled b'.component? ok visible)
    (h : (resolveList env clause param f clause?).Runs b as b') :
    b.Steady env b' ∧ ∀ a ∈ as, (x a).Spelled b'.component? ok visible := by
  cases clause? with
  | none =>
    obtain ⟨rfl, rfl⟩ := runs_pure.1 h
    exact ⟨.refl hb, nofun⟩
  | some g =>
    obtain ⟨is, -, hrun⟩ := runs_resolveList_some h
    clear h
    induction is generalizing as b with
    | nil =>
      obtain ⟨rfl, rfl⟩ := runs_mapM_nil.1 hrun
      exact ⟨.refl hb, nofun⟩
    | cons i is ih =>
      obtain ⟨a, b₁, as', ha, has, rfl⟩ := runs_mapM_cons.1 hrun
      obtain ⟨hsteady, hx⟩ := hf i b a b₁ hb hseen ha
      obtain ⟨hsteady', hxs⟩ := ih hsteady.recorded (hsteady.sees_eq ▸ hseen) has
      exact ⟨hsteady.trans hsteady',
        List.forall_mem_cons.2 ⟨hx.mono hsteady'.components le_rfl, hxs⟩⟩

/-! ## All clauses -/

theorem resolveClauses_spelled {q : ClauseTexts} (hok : env.Spells ok)
    (hsub : subquery.Spells env ok) (hb : b.Recorded env) (hseen : b.Sees ⊆ visible)
    (hg : graph.Shown b.component? visible)
    (h : (resolveClauses env subquery graph param q).Runs b c b') :
    b.Steady env b' ∧ ClausesSpelled b'.component? ok visible c := by
  have hroot : ∀ id ∈ some graph.root.id, id ∈ visible := by
    rintro _ ⟨⟩
    exact (hg graph.root List.mem_cons_self).1
  obtain ⟨b₁, b₂, b₃, b₄, h1, h2, h3, h4, h5⟩ := runs_resolveClauses h
  obtain ⟨s₁, hselect⟩ := resolveSelect_spelled hok hsub hb hseen hg h1
  have hseen₁ : b₁.Sees ⊆ visible := s₁.sees_eq ▸ hseen
  obtain ⟨s₂, hfilter⟩ :=
    resolveCondition_spelled hok hsub s₁.recorded hseen₁ (fun _ hid => by cases hid) h2
  have hseen₂ : b₂.Sees ⊆ visible := s₂.sees_eq ▸ hseen₁
  obtain ⟨s₃, hgroup⟩ := resolveList_spelled (x := id) s₂.recorded hseen₂
    (fun _ _ _ _ hb hseen h => resolveExpr_spelled hok hsub hb hseen hroot h) h3
  have hseen₃ : b₃.Sees ⊆ visible := s₃.sees_eq ▸ hseen₂
  obtain ⟨s₄, hhaving⟩ := resolveCondition_spelled hok hsub s₃.recorded hseen₃ hroot h4
  have hseen₄ : b₄.Sees ⊆ visible := s₄.sees_eq ▸ hseen₃
  obtain ⟨s₅, horder⟩ := resolveList_spelled (x := OrderTerm.expr) s₄.recorded hseen₄
    (fun _ _ _ _ hb hseen h => resolveOrderItem_spelled hok hsub hb hseen hroot h) h5
  have s₄₅ := s₄.trans s₅
  have s₃₅ := s₃.trans s₄₅
  refine ⟨s₁.trans (s₂.trans s₃₅), fun i hi => (hselect i hi).mono (s₂.trans s₃₅).components,
    fun e he => (hfilter e he).mono s₃₅.components le_rfl, fun e he => ?_⟩
  rcases List.mem_append.1 he with he | he
  · rcases List.mem_append.1 he with he | he
    · exact (hgroup e he).mono s₄₅.components le_rfl
    · exact (hhaving e (Option.mem_toList.1 he)).mono s₅.components le_rfl
  · obtain ⟨t, ht, rfl⟩ := List.mem_map.1 he
    exact horder t ht

/-! ## Completed and named lists -/

theorem ClausesSpelled.select_eq (h : ClausesSpelled known ok visible c)
    (hitems : ∀ i ∈ items, i.Spelled known ok visible) :
    ClausesSpelled known ok visible { c with select := items } :=
  ⟨hitems, h.filter, h.later⟩

theorem ClausesSpelled.nameOutputs (names : AliasNames) (h : ClausesSpelled known ok visible c) :
    ClausesSpelled known ok visible (nameOutputs names c) := by
  refine h.select_eq fun i hi => ?_
  obtain ⟨j, hj, hr⟩ := exists_left_of_mem (nameOutputsFrom_spec names [] c.select) hi
  have hj := h.select j hj
  cases i with
  | field f =>
    obtain ⟨-, f', hf', he⟩ := hr.field f rfl
    cases j with
    | field g =>
      cases hf'
      rw [he]
      exact ⟨hj.visible, hj.column⟩
    | expression => cases hf'
  | expression o k e name =>
    have he := hr.expr
    cases j with
    | field => cases he
    | expression =>
      cases he
      exact hj

theorem ClausesSpelled.selectKeys (hg : graph.Shown known visible)
    (h : ClausesSpelled known ok visible c) :
    ClausesSpelled known ok visible (selectKeys graph c) := by
  obtain ⟨hid, hc⟩ := hg graph.root List.mem_cons_self
  exact h.select_eq (spelled_ofColumns hid hc fun _ hx => (List.mem_filter.1 hx).1)

theorem missingFields_spelled {required : List (AliasId × String)}
    (hg : graph.Shown known visible) :
    ∀ i ∈ missingFields graph items required, i.Spelled known ok visible := by
  induction required generalizing items with
  | nil => exact nofun
  | cons r required ih =>
    obtain ⟨id, column⟩ := r
    simp only [missingFields]
    split
    · exact ih
    · rename_i x hx
      split
      · exact ih
      · obtain ⟨n, hn, hx⟩ := Option.bind_eq_some_iff.1 hx
        have hnid : n.id = id := by simpa using List.find?_some hn
        obtain ⟨hid, hc⟩ := hg n (List.mem_of_find?_eq_some hn)
        refine List.forall_mem_cons.2 ⟨?_, ih⟩
        exact ⟨hnid ▸ hid, _, hnid ▸ hc, x, Component.mem_of_column? hx, rfl, rfl⟩

theorem ClausesSpelled.completeSelection (emitted : List AliasId) (hg : graph.Shown known visible)
    (h : ClausesSpelled known ok visible c) :
    ClausesSpelled known ok visible (completeSelection graph emitted c) := by
  refine h.select_eq fun i hi => ?_
  rcases mem_select_completeSelection.1 hi with hi | hi
  · exact h.select i hi
  · exact missingFields_spelled hg i hi

/-! ## Default orderings -/

section
variable (hok : env.Spells ok) (hsub : subquery.Spells env ok)
include hok hsub

theorem OrdersBy.spelled {items : List Item} (h : OrdersBy env subquery id items ts b ts' b')
    (hb : b.Recorded env) (hseen : b.Sees ⊆ visible) (hid : id ∈ visible)
    (hts : ∀ t ∈ ts, t.expr.Spelled b.component? ok visible) :
    b.Steady env b' ∧ ∀ t ∈ ts', t.expr.Spelled b'.component? ok visible := by
  have hbare : ∀ a ∈ some id, a ∈ visible := by
    rintro _ ⟨⟩
    exact hid
  induction h with
  | nil => exact ⟨.refl hb, hts⟩
  | @cons i items t ts ts₁ ts' b b₁ b' _ ht hmore _ ih =>
    obtain ⟨hsteady, ht⟩ := resolveOrderItem_spelled hok hsub hb hseen hbare ht
    have hold (u) (hu : u ∈ ts) := (hts u hu).mono hsteady.components le_rfl
    have hts₁ : ∀ u ∈ ts₁, u.expr.Spelled b₁.component? ok visible := by
      rcases hmore with rfl | rfl
      · exact hold
      · exact List.forall_mem_append.2 ⟨hold, List.forall_mem_singleton.2 ht⟩
    obtain ⟨hsteady', hts'⟩ := ih hsteady.recorded (hsteady.sees_eq ▸ hseen) hts₁
    exact ⟨hsteady.trans hsteady', hts'⟩

theorem appendOrderings_spelled {os : List (AliasId × String)} (hb : b.Recorded env)
    (hseen : b.Sees ⊆ visible) (hos : ∀ o ∈ os, o.1 ∈ visible)
    (hts : ∀ t ∈ ts, t.expr.Spelled b.component? ok visible)
    (h : Runs (os.foldlM (fun terms o => appendOrdering env subquery terms o.1 o.2.toList) ts)
      b ts' b') : b.Steady env b' ∧ ∀ t ∈ ts', t.expr.Spelled b'.component? ok visible := by
  refine runs_foldlM_keeps
    (I := fun us c => b.Steady env c ∧ ∀ t ∈ us, t.expr.Spelled c.component? ok visible) ?_
    ⟨.refl hb, hts⟩ h
  rintro o ho us b₁ us' b₂ ⟨hsteady, hus⟩ h
  obtain ⟨items, -, h⟩ := runs_appendOrdering h
  obtain ⟨hsteady', hus'⟩ := h.spelled hok hsub hsteady.recorded (hsteady.sees_eq ▸ hseen)
    (hos o ho) hus
  exact ⟨hsteady.trans hsteady', hus'⟩

/-- The orderings of the schema are about nodes of the graph, and their columns are spelled well. -/
theorem appendDefaultOrdering_spelled {emitted : List AliasId} {c' : ClauseSet}
    (hb : b.Recorded env) (hseen : b.Sees ⊆ visible) (hg : graph.Shown b.component? visible)
    (hc : ClausesSpelled b.component? ok visible c)
    (h : (appendDefaultOrdering env subquery graph emitted c).Runs b c' b') :
    b.Steady env b' ∧ ClausesSpelled b'.component? ok visible c' := by
  obtain ⟨ts, _, h1, h2⟩ := runs_bind.1 h
  obtain ⟨rfl, rfl⟩ := runs_pure.1 h2
  have hos : ∀ o ∈ defaultOrderings graph emitted, o.1 ∈ visible := fun o ho => by
    obtain ⟨n, hn, hid⟩ := mem_defaultOrderings ho
    exact hid ▸ (hg n hn).1
  obtain ⟨hsteady, hts⟩ := appendOrderings_spelled hok hsub hb hseen hos
    (fun t ht => hc.later _ (List.mem_append_right _ (List.mem_map_of_mem ht))) h1
  refine ⟨hsteady, fun i hi => (hc.select i hi).mono hsteady.components,
    fun e he => (hc.filter e he).mono hsteady.components le_rfl, fun e he => ?_⟩
  rcases List.mem_append.1 he with he | he
  · exact (hc.later e (List.mem_append_left _ he)).mono hsteady.components le_rfl
  · obtain ⟨t, ht, rfl⟩ := List.mem_map.1 he
    exact hts t ht

end

end ObjectQuery
