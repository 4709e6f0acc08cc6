import ObjectQuery.Proofs.Compiler.Placeholders
import ObjectQuery.Proofs.Scope.Plan
import ObjectQuery.Proofs.Sql.Renaming

/-! # The statement that lists the limited roots

The keys of the limited roots are listed by a statement that repeats the joins and the conditions of
the outer one under names of its own. No order term in it refers to a select list any more, so that
it reads nothing but what it introduces itself.

* `mem_inlined`, `QueryPlan.rootClauses_inScope`: expressions in the place of references to them;
* `QueryPlan.limitedKeys_scoped`, `QueryPlan.selectStatement_scoped`: the statements of a plan. -/

namespace ObjectQuery

open Sql

variable {env : Surroundings} {p : QueryPlan} {c : ClauseSet} {e : Expr} {x : Piece}
  {P visible : Set AliasId} {names : AliasNames} {outer : Set String} {s : Select} {d : Dialect}

/-! ## Expressions in the place of references -/

theorem ClauseSet.expression?_of_lists {o : AliasId} {k : Nat} (h : c.Lists o k) :
    ∃ e name, c.expression? o k = some (.expression o k e name) := by
  obtain ⟨e, name, hmem⟩ := h
  cases hfind : c.expression? o k with
  | none =>
    have := List.find?_eq_none.1 hfind _ hmem
    simp [SelectItem.isExpression] at this
  | some i =>
    have hi := List.find?_some hfind
    cases i with
    | field f => cases hi
    | expression o' k' e' name' =>
      simp only [SelectItem.isExpression, Bool.and_eq_true, beq_iff_eq] at hi
      obtain ⟨rfl, rfl⟩ := hi
      exact ⟨e', name', rfl⟩

/-- Pieces without references stay as they are. -/
theorem inlinePieces_eq_self {ps : List Piece} (h : ∀ o k, .output o k ∉ ps) (fuel : Nat) :
    inlinePieces c fuel ps = ps := by
  cases fuel with
  | zero => rfl
  | succ fuel =>
    rw [inlinePieces]
    refine (List.flatMap_congr (g := fun x => [x]) fun x hx => ?_).trans
      (List.flatMap_singleton' ps)
    cases x with
    | output o k => exact absurd hx (h o k)
    | text | column | placeholder | subquery | discriminator => rfl

/-- The expression refers to the select expression `y`. -/
def Expr.RefersTo (c : ClauseSet) (e y : Expr) : Prop :=
  ∃ o k name, .output o k ∈ e.pieces ∧ c.expression? o k = some (.expression o k y name)

/-- Select expressions hold no references, so that one round of replacements is enough. -/
theorem pieces_inlined (hselect : ∀ e ∈ c.selectExprs, ∀ o k, .output o k ∉ e.pieces)
    (hlists : ∀ o k, .output o k ∈ e.pieces → c.Lists o k) :
    (e.inlined c).pieces = inlinePieces c 1 e.pieces := by
  change inlinePieces c c.select.length e.pieces = _
  cases hlength : c.select.length with
  | zero =>
    have hnone (o k) : .output o k ∉ e.pieces := fun ho => by
      obtain ⟨y, name, hmem⟩ := hlists o k ho
      rw [List.length_eq_zero_iff.1 hlength] at hmem
      cases hmem
    rw [inlinePieces_eq_self hnone, inlinePieces_eq_self hnone]
  | succ fuel =>
    rw [inlinePieces, inlinePieces]
    refine List.flatMap_congr fun x hx => ?_
    cases x with
    | output o k =>
      obtain ⟨y, name, hfind⟩ := ClauseSet.expression?_of_lists (hlists o k hx)
      simp only [hfind]
      exact inlinePieces_eq_self (hselect y (expr_mem_of_expression? hfind)) fuel
    | text | column | placeholder | subquery | discriminator => rfl

/-- In the place of references stand the select expressions that they refer to. -/
theorem mem_inlined (hselect : ∀ e ∈ c.selectExprs, ∀ o k, .output o k ∉ e.pieces)
    (hlists : ∀ o k, .output o k ∈ e.pieces → c.Lists o k) : x ∈ (e.inlined c).pieces ↔
      (x ∈ e.pieces ∧ ∀ o k, x ≠ .output o k) ∨ ∃ y, e.RefersTo c y ∧ x ∈ y.pieces := by
  rw [pieces_inlined hselect hlists, inlinePieces, List.mem_flatMap]
  constructor
  · rintro ⟨z, hz, hx⟩
    cases z with
    | output o k =>
      obtain ⟨y, name, hfind⟩ := ClauseSet.expression?_of_lists (hlists o k hz)
      simp only [hfind, inlinePieces] at hx
      exact .inr ⟨y, ⟨o, k, name, hz, hfind⟩, hx⟩
    | text | column | placeholder | subquery | discriminator =>
      cases List.mem_singleton.1 hx
      exact .inl ⟨hz, fun _ _ he => by cases he⟩
  · rintro (⟨hx, hne⟩ | ⟨y, ⟨o, k, name, ho, hfind⟩, hx⟩)
    · refine ⟨x, hx, ?_⟩
      cases x with
      | output o k => exact absurd rfl (hne o k)
      | text | column | placeholder | subquery | discriminator => exact List.mem_singleton_self _
    · refine ⟨_, ho, ?_⟩
      simp only [hfind, inlinePieces]
      exact hx

theorem Expr.RefersTo.mem_selectExprs {y : Expr} (h : e.RefersTo c y) : y ∈ c.selectExprs :=
  let ⟨_, _, _, _, hfind⟩ := h
  expr_mem_of_expression? hfind

/-- With references replaced, an expression reads what the select expressions read that it refers
to. -/
theorem mem_reads_inlined (hselect : ∀ e ∈ c.selectExprs, ∀ o k, .output o k ∉ e.pieces)
    (hlists : ∀ o k, .output o k ∈ e.pieces → c.Lists o k) {a : AliasId} :
    a ∈ (e.inlined c).reads ↔ (∃ x ∈ e.pieces, (∀ o k, x ≠ .output o k) ∧ a ∈ x.reads) ∨
      ∃ y, e.RefersTo c y ∧ a ∈ y.reads := by
  simp only [Expr.reads_eq, Piece.mem_readsAll, mem_inlined hselect hlists, or_and_right, exists_or,
    and_assoc]
  refine or_congr_right ⟨?_, ?_⟩
  · rintro ⟨x, ⟨y, hy, hx⟩, ha⟩
    exact ⟨y, hy, x, hx, ha⟩
  · rintro ⟨y, hy, x, hx, ha⟩
    exact ⟨x, ⟨y, hy, hx⟩, ha⟩

/-! ## The keys of the roots -/

namespace QueryPlan

/-- The clauses of the statement that lists the keys of the roots. -/
def rootClauses (p : QueryPlan) : ClauseSet where
  distinct := !p.ordersByJoin
  select := []
  filter := p.clauses.filter
  groupBy := p.clauses.groupBy.map (·.inlined p.clauses)
  having := p.clauses.having.map (·.inlined p.clauses)
  orderBy := p.explicitOrder.map fun t => { t with expr := t.expr.inlined p.clauses }
  limit := none
  offset := none

/-- The expressions of order terms that are selected with the keys. -/
def keyOutputs (p : QueryPlan) : List Expr :=
  (if p.ordersByJoin then [] else p.orderOutputs).map (·.inlined p.clauses)

theorem rootSelect_eq : p.rootSelect names = { p.toSelect names p.rootClauses with
    items := keyItems (names.get p.graph.root.id) p.rootKeys ++
      (Expr.termsEach names p.keyOutputs).map fun t => ⟨t, none⟩ } := rfl

theorem mem_keyOutputs (he : e ∈ p.keyOutputs) :
    ∃ y ∈ p.asked.laterExprs, e = y.inlined p.clauses := by
  obtain ⟨y, hy, rfl⟩ := List.mem_map.1 he
  split at hy
  · cases hy
  · obtain ⟨-, t, ht, rfl⟩ := mem_orderOutputs.1 hy
    exact ⟨_, List.mem_append_right _ (List.mem_map_of_mem ht), rfl⟩

theorem mem_laterExprs_rootClauses (he : e ∈ p.rootClauses.laterExprs) :
    ∃ y ∈ p.asked.laterExprs, e = y.inlined p.clauses := by
  simp only [ClauseSet.laterExprs, rootClauses, List.mem_append, List.mem_map, Option.mem_toList,
    Option.map_eq_some_iff, exists_exists_and_eq_and] at he
  rcases he with (⟨y, hy, rfl⟩ | ⟨y, hy, rfl⟩) | ⟨t, ht, rfl⟩
  · exact ⟨y, List.mem_append_left _ (List.mem_append_left _ hy), rfl⟩
  · exact ⟨y, List.mem_append_left _ (List.mem_append_right _ (Option.mem_toList.2 hy)), rfl⟩
  · exact ⟨t.expr, List.mem_append_right _ (List.mem_map_of_mem ht), rfl⟩

theorem mem_laterExprs_of_asked (he : e ∈ p.asked.laterExprs) :
    e ∈ p.clauses.laterExprs := by
  rcases List.mem_append.1 he with he | he
  · exact List.mem_append_left _ he
  · obtain ⟨t, ht, rfl⟩ := List.mem_map.1 he
    exact List.mem_append_right _ (List.mem_map_of_mem (List.mem_filter.1 ht).1)

/-- The statement that lists the keys is made of pieces of the query. -/
theorem exists_of_mem_rootExprs (he : e ∈ p.keyOutputs ++ queryExprs p.graph p.rootClauses)
    (hx : x ∈ e.pieces) : ∃ y ∈ queryExprs p.graph p.clauses, x ∈ y.pieces := by
  have hinlined {y : Expr} (hy : y ∈ p.asked.laterExprs)
      (hx : x ∈ (y.inlined p.clauses).pieces) : ∃ z ∈ queryExprs p.graph p.clauses, x ∈ z.pieces := by
    rcases Expr.mem_inlined hx with hx | ⟨z, hz, hx⟩
    · have hlater := mem_laterExprs_of_asked hy
      exact ⟨y, List.mem_append_left _ (List.mem_append_right _ hlater), hx⟩
    · have hrow : z ∈ p.clauses.rowExprs := List.mem_append_left _ hz
      exact ⟨z, List.mem_append_left _ (List.mem_append_left _ hrow), hx⟩
  rcases List.mem_append.1 he with he | he
  · obtain ⟨y, hy, rfl⟩ := mem_keyOutputs he
    exact hinlined hy hx
  · rcases List.mem_append.1 he with he | he
    · rcases List.mem_append.1 he with he | he
      · have hrow : e ∈ p.clauses.rowExprs := List.mem_append_right _ he
        exact ⟨e, List.mem_append_left _ (List.mem_append_left _ hrow), hx⟩
      · obtain ⟨y, hy, rfl⟩ := mem_laterExprs_rootClauses he
        exact hinlined hy hx
    · exact ⟨e, List.mem_append_right _ he, hx⟩

/-- With references replaced, the expressions of a query in scope are in scope and hold none. -/
theorem inlined_inScope (h : InScope P ∅ p.graph p.asked p.emitted) (he : e ∈ p.asked.laterExprs) :
    (∀ x ∈ (e.inlined p.clauses).pieces,
        x.InScope (∅ ∪ {a | a ∈ p.emitted}) fun _ _ => False) ∧
      ∀ q, .subquery q ∈ (e.inlined p.clauses).pieces →
        InScope P (∅ ∪ {a | a ∈ p.emitted}) q.graph q.clauses q.emitted := by
  cases h with
  | intro _ _ _ _ _ rows later nested _ _ =>
    have hselect (y) (hy : y ∈ p.clauses.selectExprs) : y ∈ p.asked.rowExprs :=
      List.mem_append_left _ hy
    have hpiece {x : Piece} : x ∈ (e.inlined p.clauses).pieces ↔ _ :=
      mem_inlined (fun y hy o k ho => rows y (hselect y hy) _ ho) fun o k ho => later e he _ ho
    constructor
    · intro x hx
      rcases hpiece.1 hx with ⟨hx, hne⟩ | ⟨y, hy, hx⟩
      · have := later e he x hx
        cases x with
        | output o k => exact absurd rfl (hne o k)
        | text | column | placeholder | subquery | discriminator => exact this
      · exact rows y (hselect y hy.mem_selectExprs) x hx
    · intro q hq
      rcases hpiece.1 hq with ⟨hq, -⟩ | ⟨y, hy, hq⟩
      · exact nested e (List.mem_append_right _ he) q hq
      · exact nested y (List.mem_append_left _ (hselect y hy.mem_selectExprs)) q hq

theorem rootClauses_inScope (h : InScope P ∅ p.graph p.asked p.emitted) :
    InScope P ∅ p.graph p.rootClauses p.emitted := by
  have hinlined (e) (he : e ∈ p.rootClauses.laterExprs) :
      (∀ x ∈ e.pieces, x.InScope (∅ ∪ {a | a ∈ p.emitted}) fun _ _ => False) ∧
        ∀ q, .subquery q ∈ e.pieces →
          InScope P (∅ ∪ {a | a ∈ p.emitted}) q.graph q.clauses q.emitted := by
    obtain ⟨y, hy, rfl⟩ := mem_laterExprs_rootClauses he
    exact inlined_inScope h hy
  have hrow (e) (he : e ∈ p.rootClauses.rowExprs) : e ∈ p.asked.rowExprs :=
    List.mem_append_right _ he
  cases h with
  | intro root declared introduced fields owners rows later nested joins nestedJoins =>
    refine .intro root declared introduced nofun nofun (fun e he => rows e (hrow e he))
      (fun e he x hx => ?_) (fun e he q hq => ?_) joins nestedJoins
    · have := (hinlined e he).1 x hx
      cases x with
      | output o k => exact this.elim
      | text | column | placeholder | subquery | discriminator => exact this
    · rcases List.mem_append.1 he with he | he
      · exact nested e (List.mem_append_left _ (hrow e he)) q hq
      · exact (hinlined e he).2 q hq

theorem mem_keyItems {qualifier : String} {keys : List String} {t : Term}
    (h : t ∈ (keyItems qualifier keys).flatMap (·.terms)) :
    ∃ key ∈ keys, t = .column qualifier key := by
  cases keys with
  | nil => cases h
  | cons k keys =>
    obtain ⟨i, hi, ht⟩ := List.mem_flatMap.1 h
    obtain ⟨key, hkey, rfl⟩ := List.mem_map.1 hi
    exact ⟨key, hkey, List.mem_singleton.1 ht⟩

theorem rootSelect_scoped (h : InScope P ∅ p.graph p.asked p.emitted)
    (hnames : ∀ a ∈ P, names.get a ≠ "") : (p.rootSelect names).Scoped ∅ := by
  have hscoped := (rootClauses_inScope h).scoped hnames true
  rw [Set.image_empty] at hscoped
  have himage : names.get '' (∅ ∪ {a | a ∈ p.emitted}) ⊆
      ∅ ∪ {x | x ∈ (p.toSelect names p.rootClauses).introduced} := by
    rw [toSelect, toSelect_introduced]
    cases h with
    | intro _ declared _ _ _ _ _ _ _ _ =>
      have := image_joinNames names ∅ declared
      rwa [Set.image_empty] at this
  have hroot : names.get p.graph.root.id ∈ (p.toSelect names p.rootClauses).introduced := by
    rw [toSelect, toSelect_introduced]
    exact List.mem_cons_self
  have hitems {t : Term} (ht : t ∈ (keyItems (names.get p.graph.root.id) p.rootKeys ++
      (Expr.termsEach names p.keyOutputs).map fun t => (⟨t, none⟩ : Sql.Item)).flatMap (·.terms)) :
      (∃ key ∈ p.rootKeys, t = .column (names.get p.graph.root.id) key) ∨
        ∃ e ∈ p.keyOutputs, t ∈ e.terms names := by
    rw [List.flatMap_append, List.mem_append, List.flatMap_map, termsEach_eq, List.flatMap_map]
      at ht
    exact ht.imp mem_keyItems List.mem_flatMap.1
  rw [rootSelect_eq]
  refine hscoped.reselect rfl _ (fun t ht => ?_) fun q hq => ?_
  · rcases hitems ht with ⟨key, -, rfl⟩ | ⟨e, he, ht⟩
    · exact .inr hroot
    · obtain ⟨y, hy, rfl⟩ := mem_keyOutputs he
      refine (Expr.terms_inScope (inlined_inScope h hy).1 (fun _ _ h => h.elim) t ht).mono ?_ le_rfl
      exact himage
  · rcases hitems hq with ⟨key, -, hkey⟩ | ⟨e, he, hq⟩
    · cases hkey
    · obtain ⟨y, hy, rfl⟩ := mem_keyOutputs he
      obtain ⟨r, hr, rfl⟩ := subquery_of_mem_terms hq
      rw [r.toSelect_eq]
      exact (((inlined_inScope h hy).2 r hr).scoped hnames false).mono himage

theorem projectKeys_scoped {keys : List String} {distinct spelled : Bool} {name : String}
    (hs : s.Scoped outer) (hname : name ≠ "") :
    (projectKeys keys distinct s name spelled).Scoped outer := by
  have hrows {t : Term} (ht : t ∈ (projectKeys keys distinct s name spelled).rowTerms) :
      ∃ key ∈ keys, t = .column name key :=
    mem_keyItems ((List.mem_append.1 ht).resolve_right List.not_mem_nil)
  refine .intro (List.forall_mem_singleton.2 hname) (fun t ht => ?_) nofun (fun q hq => ?_) ?_ ?_ ?_
  · obtain ⟨key, -, rfl⟩ := hrows ht
    exact .inr List.mem_cons_self
  · obtain ⟨key, -, hkey⟩ := hrows ((List.mem_append.1 hq).resolve_right List.not_mem_nil)
    cases hkey
  · exact fun pre j post hj => absurd hj (by simp [projectKeys])
  · exact fun pre j post hj => absurd hj (by simp [projectKeys])
  · rintro q name' spelled' ⟨⟩
    exact hs

theorem limitedKeys_scoped (h : InScope P ∅ p.graph p.asked p.emitted)
    (hnames : ∀ a ∈ P, (p.shadowAliases.getD p.aliases).get a ≠ "") (d : Dialect) :
    (p.limitedKeys d).Scoped ∅ := by
  have hroots := rootSelect_scoped h hnames
  have htable : limitTable ≠ "" := by decide
  have hwrap : limitWrapTable ≠ "" := by decide
  simp only [limitedKeys]
  split
  · have hprojected : (projectKeys p.rootKeys true (p.rootSelect (p.shadowAliases.getD p.aliases))
        limitTable false).Scoped ∅ := projectKeys_scoped hroots htable
    have hkeys := hprojected.limited p.clauses.limit p.clauses.offset
    split
    · exact projectKeys_scoped hkeys hwrap
    · exact hkeys
  · have hkeys := hroots.limited p.clauses.limit p.clauses.offset
    split
    · exact projectKeys_scoped hkeys htable
    · split
      · exact projectKeys_scoped hkeys hwrap
      · exact hkeys

theorem mem_separateTerms {separator : String} {tss : List (List Term)} {t : Term}
    (h : t ∈ separateTerms separator tss) :
    t = .raw separator.toList ∨ ∃ ts ∈ tss, t ∈ ts := by
  induction tss with
  | nil => cases h
  | cons ts tss ih =>
    cases tss with
    | nil => exact .inr ⟨ts, List.mem_cons_self, h⟩
    | cons us tss =>
      rcases List.mem_append.1 h with h | h
      · exact .inr ⟨ts, List.mem_cons_self, h⟩
      · rcases List.mem_cons.1 h with rfl | h
        · exact .inl rfl
        · exact (ih h).imp_right fun ⟨vs, hvs, h⟩ => ⟨vs, List.mem_cons_of_mem _ hvs, h⟩

/-- The condition on the keys of the root reads the root and the keys that are listed. -/
theorem mem_rootAmong {t : Term} (h : t ∈ (p.rootAmong s).terms) :
    (∃ text, t = .raw text) ∨ (∃ key, t = .column (p.aliases.get p.graph.root.id) key) ∨
      t = .select s := by
  have hcolumns {t : Term} (h : t ∈ separateTerms ", " (p.rootKeys.map fun key =>
      [.column (p.aliases.get p.graph.root.id) key])) :
      (∃ text, t = .raw text) ∨ (∃ key, t = .column (p.aliases.get p.graph.root.id) key) ∨
        t = .select s := by
    rcases mem_separateTerms h with rfl | ⟨ts, hts, h⟩
    · exact .inl ⟨_, rfl⟩
    · obtain ⟨key, -, rfl⟩ := List.mem_map.1 hts
      exact .inr (.inl ⟨key, List.mem_singleton.1 h⟩)
  simp only [rootAmong, List.mem_append, List.mem_cons, List.not_mem_nil, or_false] at h
  rcases h with h | rfl | rfl | rfl
  · split at h
    · simp only [List.cons_append, List.mem_cons, List.mem_append, List.not_mem_nil, or_false] at h
      rcases h with rfl | h | rfl
      · exact .inl ⟨_, rfl⟩
      · exact hcolumns h
      · exact .inl ⟨_, rfl⟩
    · exact hcolumns h
  · exact .inl ⟨_, rfl⟩
  · exact .inr (.inr rfl)
  · exact .inl ⟨_, rfl⟩

theorem selectStatement_scoped (h : InScope P ∅ p.graph p.clauses p.emitted)
    (hasked : InScope P ∅ p.graph p.asked p.emitted) (hnames : ∀ a ∈ P, p.aliases.get a ≠ "")
    (hshadow : ∀ names ∈ p.shadowAliases, ∀ a ∈ P, names.get a ≠ "") (d : Dialect) :
    (p.selectStatement d).Scoped ∅ := by
  have hfull : (p.toSelect p.aliases p.clauses).Scoped ∅ := by
    have := h.scoped hnames true
    rwa [Set.image_empty] at this
  have hkeys : (p.limitedKeys d).Scoped ∅ := by
    refine limitedKeys_scoped hasked ?_ d
    cases hs : p.shadowAliases with
    | none => exact hnames
    | some names => exact hshadow names hs
  have hroot : p.aliases.get p.graph.root.id ∈
      (p.toSelect p.aliases p.clauses).introduced := by
    rw [toSelect, toSelect_introduced]
    exact List.mem_cons_self
  simp only [selectStatement]
  split
  · refine (hfull.demand _ (fun t ht => ?_) fun q hq => ?_).limited none none
    · rcases mem_rootAmong ht with ⟨text, rfl⟩ | ⟨key, rfl⟩ | rfl
      · trivial
      · exact .inr hroot
      · trivial
    · rcases mem_rootAmong hq with ⟨text, he⟩ | ⟨key, he⟩ | he
      · cases he
      · cases he
      · cases he
        exact hkeys.mono (Set.empty_subset _)
  · exact hfull

end QueryPlan
end ObjectQuery
