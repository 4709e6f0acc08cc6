import ObjectQuery.Proofs.Plan.Rooted
import ObjectQuery.Proofs.Resolve.Clauses
import ObjectQuery.Proofs.Scope.Expr

/-! # What resolved clauses read

The clauses of a query read the aliases of its joins and those of the queries around it. Words
without points stand for columns of the root or, after the select list, for select expressions of
the same query; a select expression belongs to an alias of the joins.

* `ClausesOver`: what is known of resolved clauses;
* `resolveSelect_over`, `resolveClauses_over`: clauses are resolved so. -/

namespace ObjectQuery

open Resolve

variable {env : Surroundings} {subquery : ResolveSubquery} {clause : Clause} {bare : BareWords}
  {param : Nat} {b b' : Bindings} {visible fresh fresh' : Set AliasId}
  {listed : AliasId → Nat → Prop} {graph : JoinGraph} {c : ClauseSet} {a : AliasId}

theorem JoinGraph.root_mem_aliases : graph.root.id ∈ graph.aliases := List.mem_cons_self

theorem JoinGraph.ownerOf_mem_aliases (e : Expr) : graph.ownerOf e ∈ graph.aliases := by
  rw [ownerOf]
  cases hf : e.reads.toList.find? graph.contains with
  | none => exact root_mem_aliases
  | some id => exact contains_iff.1 (List.find?_some hf)

/-- An expression belongs to an alias that it reads, or to the root. -/
theorem JoinGraph.ownerOf_mem {e : Expr} (hroot : graph.root.id ∈ visible)
    (he : ∀ a ∈ e.reads, a ∈ visible) : graph.ownerOf e ∈ visible := by
  rw [ownerOf]
  cases hf : e.reads.toList.find? graph.contains with
  | none => exact hroot
  | some id => exact he id (List.mem_of_find?_eq_some hf)

/-- What is known of a select item that is resolved. -/
def SelectItem.Over (visible : Set AliasId) (graph : JoinGraph) (fresh : Set AliasId) :
    SelectItem → Prop
  | .field f => f.owner ∈ visible
  | .expression o _ e _ => o = graph.ownerOf e ∧ e.Over visible (fun _ _ => False) fresh

/-- What is known of clauses that are resolved over a graph. -/
structure ClausesOver (visible : Set AliasId) (graph : JoinGraph) (fresh : Set AliasId)
    (c : ClauseSet) : Prop where
  select : ∀ i ∈ c.select, i.Over visible graph fresh
  filter : ∀ e ∈ c.filter, e.Over visible (fun _ _ => False) fresh
  later : ∀ e ∈ c.laterExprs, e.Over visible c.Lists fresh

theorem SelectItem.Over.mono {i : SelectItem} (hf : fresh ⊆ fresh')
    (h : i.Over visible graph fresh) : i.Over visible graph fresh' := by
  cases i with
  | field f => exact h
  | expression o k e name => exact ⟨h.1, h.2.mono le_rfl (fun _ _ h => h) hf⟩

theorem ClausesOver.mono (hf : fresh ⊆ fresh') (h : ClausesOver visible graph fresh c) :
    ClausesOver visible graph fresh' c :=
  ⟨fun i hi => (h.select i hi).mono hf,
    fun e he => (h.filter e he).mono le_rfl (fun _ _ h => h) hf,
    fun e he => (h.later e he).mono le_rfl (fun _ _ h => h) hf⟩

namespace ClausesOver

theorem rows (h : ClausesOver visible graph fresh c) :
    ∀ e ∈ c.rowExprs, e.Over visible (fun _ _ => False) fresh := by
  intro e he
  rcases List.mem_append.1 he with he | he
  · obtain ⟨i, hi, hie⟩ := List.mem_filterMap.1 he
    have hi := h.select i hi
    cases i with
    | field f => cases hie
    | expression o k x name =>
      cases hie
      exact hi.2
  · exact h.filter e (Option.mem_toList.1 he)

theorem reads (h : ClausesOver visible graph fresh c) (hroot : graph.root.id ∈ visible)
    (ha : a ∈ c.reads) : a ∈ visible := by
  rcases ClauseSet.mem_reads.1 ha with ⟨i, hi, rfl⟩ | ⟨e, he, ha⟩
  · have hi := h.select i hi
    cases i with
    | field f => exact hi
    | expression o k e name =>
      rw [SelectItem.owner, hi.1]
      exact JoinGraph.ownerOf_mem hroot fun a ha => hi.2.reads ha
  · rcases List.mem_append.1 he with he | he
    · exact (h.rows e he).reads ha
    · exact (h.later e he).reads ha

/-- Clauses that are resolved over a graph whose joins refer to no select expression. -/
theorem formed (h : ClausesOver visible graph fresh c)
    (hjoins : ∀ n ∈ graph.nodes, ∀ e ∈ n.exprs, e.Over visible (fun _ _ => False) fresh) :
    QueryFormed (·.Formed fresh) graph c := by
  have hnodes : ∀ e ∈ graph.nodes.flatMap (·.exprs), e.Over visible (fun _ _ => False) fresh := by
    intro e he
    obtain ⟨n, hn, he⟩ := List.mem_flatMap.1 he
    exact hjoins n hn e he
  refine ⟨fun o k e name hi => ?_, fun e he o k ho => ?_, fun e he o k ho => ?_, fun e he q hq => ?_⟩
  · rw [(h.select _ hi).1]
    exact JoinGraph.ownerOf_mem_aliases e
  · rcases List.mem_append.1 he with he | he
    · exact (h.rows e he _ ho).2
    · exact (hnodes e he _ ho).2
  · exact (h.later e he _ ho).2
  · rcases List.mem_append.1 he with he | he
    · rcases List.mem_append.1 he with he | he
      · exact (h.rows e he _ hq).2
      · exact (h.later e he _ hq).2
    · exact (hnodes e he _ hq).2

end ClausesOver

/-! ## The select list -/

theorem ColumnsOf.over {t : Text} {items : List SelectItem} (hseen : b.Sees ⊆ visible)
    (hroot : graph.root.id ∈ visible) (h : ColumnsOf b graph t items) :
    ∀ i ∈ items, i.Over visible graph fresh := by
  intro i hi
  cases h with
  | all ht hl hc =>
    obtain ⟨column, -, rfl⟩ := List.mem_map.1 hi
    exact hseen (Bindings.sees_of_lookup? hl)
  | qualified ht hl hc hcol =>
    rw [List.mem_singleton.1 hi]
    exact hseen (Bindings.sees_of_lookup? hl)
  | ofRoot ht hcol =>
    rw [List.mem_singleton.1 hi]
    exact hroot

theorem resolveSelectItem_over {ordinal : Nat} {i : Item} {items : List SelectItem}
    (hsub : subquery.Nests env) (hb : b.Tidy env) (hseen : b.Sees ⊆ visible)
    (hroot : graph.root.id ∈ visible)
    (h : (resolveSelectItem env subquery graph ordinal i).Runs b items b') :
    b.Keeps env b' ∧ ∀ j ∈ items, j.Over visible graph (Set.Ico b.size b'.size) := by
  obtain ⟨u, name, -, hres⟩ := runs_resolveSelectItem h
  rcases hres with ⟨rfl, hcolumns⟩ | ⟨e, hrun, rfl⟩
  · exact ⟨.refl hb, hcolumns.over hseen hroot⟩
  · obtain ⟨hkeeps, he⟩ := resolveExpr_over hsub hb (.inr hseen) .empty hrun
    exact ⟨hkeeps, List.forall_mem_singleton.2 ⟨rfl, he⟩⟩

theorem resolveSelectItems_over {ordinal : Nat} {is : List Item} {items : List SelectItem}
    (hsub : subquery.Nests env) (hb : b.Tidy env) (hseen : b.Sees ⊆ visible)
    (hroot : graph.root.id ∈ visible)
    (h : (resolveSelectItems env subquery graph ordinal is).Runs b items b') :
    b.Keeps env b' ∧ ∀ j ∈ items, j.Over visible graph (Set.Ico b.size b'.size) := by
  induction is generalizing ordinal items b with
  | nil =>
    obtain ⟨rfl, rfl⟩ := runs_pure.1 h
    exact ⟨.refl hb, nofun⟩
  | cons i is ih =>
    obtain ⟨first, b₁, rest, h1, h2, rfl⟩ := runs_resolveSelectItems_cons h
    obtain ⟨hkeeps, hf⟩ := resolveSelectItem_over hsub hb hseen hroot h1
    obtain ⟨hkeeps', hf'⟩ := ih hkeeps.tidy (hkeeps.sees_eq ▸ hseen) h2
    refine ⟨hkeeps.trans hkeeps', fun j hj => ?_⟩
    rcases List.mem_append.1 hj with hj | hj
    · exact (hf j hj).mono (Set.Ico_subset_Ico_right hkeeps'.size_le)
    · exact (hf' j hj).mono (Set.Ico_subset_Ico_left hkeeps.size_le)

theorem resolveSelect_over {clause? : Option Segment} {items : List SelectItem}
    (hsub : subquery.Nests env) (hb : b.Tidy env) (hseen : b.Sees ⊆ visible)
    (hroot : graph.root.id ∈ visible) (hg : ∀ a ∈ graph.records, a ∈ visible)
    (h : (resolveSelect env subquery graph param clause?).Runs b items b') :
    b.Keeps env b' ∧ ∀ j ∈ items, j.Over visible graph (Set.Ico b.size b'.size) := by
  cases clause? with
  | none =>
    obtain ⟨rfl, rfl⟩ := runs_pure.1 h
    refine ⟨.refl hb, fun i hi => ?_⟩
    obtain ⟨n, hn, hi⟩ := List.mem_flatMap.1 hi
    obtain ⟨column, -, rfl⟩ := List.mem_map.1 hi
    exact hg _ (List.mem_map_of_mem hn)
  | some g =>
    obtain ⟨is, -, h⟩ := runs_resolveSelect_some h
    exact resolveSelectItems_over hsub hb hseen hroot h

/-! ## The other clauses -/

theorem resolveCondition_over {clause? : Option Segment} {e? : Option Expr}
    (hsub : subquery.Nests env) (hb : b.Tidy env) (hseen : b.Sees ⊆ visible)
    (hbare : bare.Within visible listed)
    (h : (resolveCondition env subquery clause bare param clause?).Runs b e? b') :
    b.Keeps env b' ∧ ∀ e ∈ e?, e.Over visible listed (Set.Ico b.size b'.size) := by
  cases clause? with
  | none =>
    obtain ⟨rfl, rfl⟩ := runs_pure.1 h
    exact ⟨.refl hb, nofun⟩
  | some g =>
    obtain ⟨e, h1, rfl⟩ := runs_map.1 h
    obtain ⟨hkeeps, he⟩ := resolveExpr_over hsub hb (.inr hseen) hbare h1
    refine ⟨hkeeps, ?_⟩
    rintro _ ⟨⟩
    exact he

theorem resolveList_over {α : Type} {f : Item → Resolve α} {x : α → Expr}
    {clause? : Option Segment} {as : List α} (hb : b.Tidy env) (hseen : b.Sees ⊆ visible)
    (hf : ∀ i b a b', b.Tidy env → b.Sees ⊆ visible → (f i).Runs b a b' →
      b.Keeps env b' ∧ (x a).Over visible listed (Set.Ico b.size b'.size))
    (h : (resolveList env clause param f clause?).Runs b as b') :
    b.Keeps env b' ∧ ∀ a ∈ as, (x a).Over visible listed (Set.Ico b.size b'.size) := by
  cases clause? with
  | none =>
    obtain ⟨rfl, rfl⟩ := runs_pure.1 h
    exact ⟨.refl hb, nofun⟩
  | some g =>
    obtain ⟨is, -, hrun⟩ := runs_resolveList_some h
    clear h
    induction is generalizing as b with
    | nil =>
      obtain ⟨rfl, rfl⟩ := runs_mapM_nil.1 hrun
      exact ⟨.refl hb, nofun⟩
    | cons i is ih =>
      obtain ⟨a, b₁, as', ha, has, rfl⟩ := runs_mapM_cons.1 hrun
      obtain ⟨hkeeps, hx⟩ := hf i b a b₁ hb hseen ha
      obtain ⟨hkeeps', hxs⟩ := ih hkeeps.tidy (hkeeps.sees_eq ▸ hseen) has
      refine ⟨hkeeps.trans hkeeps', List.forall_mem_cons.2 ⟨?_, fun c hc => ?_⟩⟩
      · exact hx.mono le_rfl (fun _ _ h => h) (Set.Ico_subset_Ico_right hkeeps'.size_le)
      · exact (hxs c hc).mono le_rfl (fun _ _ h => h) (Set.Ico_subset_Ico_left hkeeps.size_le)

theorem resolveOrderItem_over {implicit : Bool} {i : Item} {t : OrderTerm}
    (hsub : subquery.Nests env) (hb : b.Tidy env)
    (hseen : (∀ u d, splitDirection env.config.scanner i.text = .ok (u, d) →
      ∀ f ∈ Fragment.ofText env.config.scanner u, f.IsBare) ∨ b.Sees ⊆ visible)
    (hbare : bare.Within visible listed)
    (h : (resolveOrderItem env subquery bare implicit i).Runs b t b') :
    b.Keeps env b' ∧ t.expr.Over visible listed (Set.Ico b.size b'.size) := by
  obtain ⟨u, direction, e, hu, hrun, rfl⟩ := runs_resolveOrderItem h
  exact resolveExpr_over hsub hb (hseen.imp_left fun hf => hf u direction hu) hbare hrun

/-! ## All clauses -/

/-- After the select list, its names and the root may stand alone. -/
theorem BareWords.Within.ofSelect (hroot : graph.root.id ∈ visible)
    (hselect : ∀ i ∈ c.select, i.Over visible graph fresh) :
    BareWords.Within ⟨c.named?, some graph.root.id⟩ visible c.Lists := by
  refine ⟨?_, fun name o k ho => ?_⟩
  · rintro _ ⟨⟩
    exact hroot
  · obtain ⟨e, n, hmem⟩ := ClauseSet.mem_of_named? ho
    refine ⟨?_, e, n, hmem⟩
    obtain ⟨ho, he⟩ := hselect _ hmem
    exact ho ▸ JoinGraph.ownerOf_mem hroot fun a ha => he.reads ha

theorem resolveClauses_over {q : ClauseTexts} (hsub : subquery.Nests env) (hb : b.Tidy env)
    (hseen : b.Sees ⊆ visible) (hroot : graph.root.id ∈ visible)
    (hg : ∀ a ∈ graph.records, a ∈ visible)
    (h : (resolveClauses env subquery graph param q).Runs b c b') :
    b.Keeps env b' ∧ ClausesOver visible graph (Set.Ico b.size b'.size) c := by
  obtain ⟨b₁, b₂, b₃, b₄, h1, h2, h3, h4, h5⟩ := runs_resolveClauses h
  obtain ⟨k₁, hselect⟩ := resolveSelect_over hsub hb hseen hroot hg h1
  have hseen₁ : b₁.Sees ⊆ visible := k₁.sees_eq ▸ hseen
  have hnone : BareWords.Within {} visible fun _ _ => False := .empty
  obtain ⟨k₂, hfilter⟩ := resolveCondition_over hsub k₁.tidy hseen₁ hnone h2
  have hseen₂ : b₂.Sees ⊆ visible := k₂.sees_eq ▸ hseen₁
  have hbare : BareWords.Within ⟨c.named?, some graph.root.id⟩ visible c.Lists :=
    .ofSelect hroot hselect
  obtain ⟨k₃, hgroup⟩ := resolveList_over (x := id) k₂.tidy hseen₂
    (fun _ _ _ _ hb hseen h => resolveExpr_over hsub hb (.inr hseen) hbare h) h3
  have hseen₃ : b₃.Sees ⊆ visible := k₃.sees_eq ▸ hseen₂
  obtain ⟨k₄, hhaving⟩ := resolveCondition_over hsub k₃.tidy hseen₃ hbare h4
  have hseen₄ : b₄.Sees ⊆ visible := k₄.sees_eq ▸ hseen₃
  obtain ⟨k₅, horder⟩ := resolveList_over (x := OrderTerm.expr) k₄.tidy hseen₄
    (fun _ _ _ _ hb hseen h => resolveOrderItem_over hsub hb (.inr hseen) hbare h) h5
  have hle₂ := Nat.le_trans k₁.size_le k₂.size_le
  have hle₃ := Nat.le_trans hle₂ k₃.size_le
  have hle₄ := Nat.le_trans hle₃ k₄.size_le
  have hlast₄ := Nat.le_trans k₄.size_le k₅.size_le
  have hlast₃ := Nat.le_trans k₃.size_le hlast₄
  have hlast₂ := Nat.le_trans k₂.size_le hlast₃
  refine ⟨k₁.trans (k₂.trans (k₃.trans (k₄.trans k₅))), fun i hi => ?_, fun e he => ?_,
    fun e he => ?_⟩
  · exact (hselect i hi).mono (Set.Ico_subset_Ico_right hlast₂)
  · exact (hfilter e he).mono le_rfl (fun _ _ h => h) (Set.Ico_subset_Ico k₁.size_le hlast₃)
  · rcases List.mem_append.1 he with he | he
    · rcases List.mem_append.1 he with he | he
      · exact (hgroup e he).mono le_rfl (fun _ _ h => h) (Set.Ico_subset_Ico hle₂ hlast₄)
      · exact (hhaving e (Option.mem_toList.1 he)).mono le_rfl (fun _ _ h => h)
          (Set.Ico_subset_Ico hle₃ k₅.size_le)
    · obtain ⟨t, ht, rfl⟩ := List.mem_map.1 he
      exact (horder t ht).mono le_rfl (fun _ _ h => h) (Set.Ico_subset_Ico_left hle₄)

end ObjectQuery
