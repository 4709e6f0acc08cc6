import ObjectQuery.Proofs.Scope.Statement

/-! # What a limit counts

A limited plan has one limit in the statement that lists its roots. Where an order term as it is
written reads a joined table, the limit counts the roots; otherwise it counts the roots together
with what they are ordered by. A reference to a select expression reads the owner of that expression
only, so that a term that names an expression of the root and a joined table counts as one that
reads the root.

* `QueryPlan.orderReadsJoin_iff`: what the order reads once references are replaced;
* `QueryPlan.limitedKeys_levels`: the statement that has the limit;
* `plan_limit`: what the limit of a plan counts. -/

namespace ObjectQuery

open Sql

variable {env : Surroundings} {T : Text} {p : QueryPlan} {a : AliasId} {n : Nat} {d : Dialect}
  {c : ClauseSet} {e y : Expr} {s : Select} {graph : JoinGraph} {fresh : Set AliasId}

/-! ## What order terms read -/

/-- An expression reads what its pieces read; a reference reads the owner of the expression that it
stands for. -/
theorem Expr.mem_reads_refersTo (hlists : ∀ o k, .output o k ∈ e.pieces → c.Lists o k)
    (hselect : ∀ i ∈ c.select, i.Over {a | a ∈ graph.aliases} graph fresh) :
    a ∈ e.reads ↔ (∃ x ∈ e.pieces, (∀ o k, x ≠ .output o k) ∧ a ∈ x.reads) ∨
      ∃ y, e.RefersTo c y ∧ a = graph.ownerOf y := by
  have howner {o k y name} (hfind : c.expression? o k = some (.expression o k y name)) :
      o = graph.ownerOf y :=
    (hselect _ (List.mem_of_find?_eq_some hfind)).1
  rw [Expr.reads_eq, Piece.mem_readsAll]
  constructor
  · rintro ⟨x, hx, ha⟩
    cases x with
    | output o k =>
      obtain ⟨y, name, hfind⟩ := ClauseSet.expression?_of_lists (hlists o k hx)
      rw [Piece.reads, AliasSet.mem_ofList, List.mem_singleton] at ha
      exact .inr ⟨y, ⟨o, k, name, hx, hfind⟩, ha.trans (howner hfind)⟩
    | text | column | placeholder | subquery | discriminator =>
      exact .inl ⟨_, hx, fun _ _ he => (by cases he), ha⟩
  · rintro (⟨x, hx, -, ha⟩ | ⟨y, ⟨o, k, name, ho, hfind⟩, rfl⟩)
    · exact ⟨x, hx, ha⟩
    · refine ⟨_, ho, ?_⟩
      rw [Piece.reads, AliasSet.mem_ofList, ← howner hfind]
      exact List.mem_singleton_self o

/-- An expression reads its owner, unless it reads no alias of the graph and belongs to the root. -/
theorem JoinGraph.ownerOf_cases (graph : JoinGraph) (e : Expr) : graph.ownerOf e ∈ e.reads ∨
    graph.ownerOf e = graph.root.id ∧ ∀ a ∈ e.reads, a ∉ graph.aliases := by
  rw [ownerOf]
  cases hf : e.reads.toList.find? graph.contains with
  | none =>
    have hnone := List.find?_eq_none.1 hf
    exact .inr ⟨rfl, fun a ha hg => hnone a ha (contains_iff.2 hg)⟩
  | some id => exact .inl (List.mem_of_find?_eq_some hf)

/-- A statement that limits its rows. -/
def Sql.Select.isLimited (s : Select) : Bool := s.limit.isSome || s.offset.isSome

namespace QueryPlan

/-- The expression reads another alias than the root. -/
def ReadsJoin (p : QueryPlan) (e : Expr) : Prop := ∃ a ∈ e.reads, a ≠ p.graph.root.id

instance (p : QueryPlan) (e : Expr) : Decidable (p.ReadsJoin e) :=
  inferInstanceAs (Decidable (∃ a ∈ e.reads.toList, a ≠ p.graph.root.id))

/-- Some order term that the query asks for reads another alias than the root, with the select
expressions that it names in the place of their names. -/
def OrderReadsJoin (p : QueryPlan) : Prop :=
  ∃ t ∈ p.explicitOrder, p.ReadsJoin (t.expr.inlined p.clauses)

instance (p : QueryPlan) : Decidable p.OrderReadsJoin :=
  inferInstanceAs (Decidable (∃ t ∈ p.explicitOrder, p.ReadsJoin (t.expr.inlined p.clauses)))

/-- Some order term that the query asks for names a select expression of the root and of another
alias. -/
def OrderNamesMixed (p : QueryPlan) : Prop :=
  ∃ t ∈ p.explicitOrder, ∃ y, t.expr.RefersTo p.clauses y ∧ p.graph.root.id ∈ y.reads ∧
    p.ReadsJoin y

theorem ordersByJoin_iff : p.ordersByJoin = true ↔ ∃ t ∈ p.explicitOrder, p.ReadsJoin t.expr := by
  simp only [ordersByJoin, List.any_eq_true, bne_iff_ne]
  rfl

/-- An order term reads a joined table, or names a select expression that also reads the root. -/
theorem orderReadsJoin_iff (h : PlanOver env n p) :
    p.OrderReadsJoin ↔ p.ordersByJoin = true ∨ p.OrderNamesMixed := by
  have hselect : ∀ y ∈ p.clauses.selectExprs, y.Over {a | a ∈ p.graph.aliases} (fun _ _ => False)
      (p.graph.freshIn 0 n) := fun y hy => h.clauses.rows y (List.mem_append_left _ hy)
  have hnone : ∀ y ∈ p.clauses.selectExprs, ∀ o k, .output o k ∉ y.pieces :=
    fun y hy o k ho => (hselect y hy _ ho).2
  have hlists {t : OrderTerm} (ht : t ∈ p.explicitOrder) (o k) (ho : .output o k ∈ t.expr.pieces) :
      p.clauses.Lists o k :=
    (h.clauses.later _ (List.mem_append_right _ (List.mem_map_of_mem ht)) (.output o k) ho).2
  have hinlined {t : OrderTerm} (ht : t ∈ p.explicitOrder) {a : AliasId} :
      a ∈ (t.expr.inlined p.clauses).reads ↔ _ := mem_reads_inlined hnone (hlists ht)
  have hwritten {t : OrderTerm} (ht : t ∈ p.explicitOrder) {a : AliasId} : a ∈ t.expr.reads ↔ _ :=
    Expr.mem_reads_refersTo (hlists ht) h.clauses.select
  rw [ordersByJoin_iff]
  constructor
  · rintro ⟨t, ht, a, ha, hne⟩
    rcases (hinlined ht).1 ha with hx | ⟨y, hy, ha⟩
    · exact .inl ⟨t, ht, a, (hwritten ht).2 (.inl hx), hne⟩
    · have hgraph := (hselect y hy.mem_selectExprs).reads ha
      have hread := (p.graph.ownerOf_cases y).resolve_right fun h => h.2 a ha hgraph
      by_cases hroot : p.graph.ownerOf y = p.graph.root.id
      · exact .inr ⟨t, ht, y, hy, hroot ▸ hread, a, ha, hne⟩
      · exact .inl ⟨t, ht, _, (hwritten ht).2 (.inr ⟨y, hy, rfl⟩), hroot⟩
  · rintro (⟨t, ht, a, ha, hne⟩ | ⟨t, ht, y, hy, -, a, ha, hne⟩)
    · rcases (hwritten ht).1 ha with hx | ⟨y, hy, rfl⟩
      · exact ⟨t, ht, a, (hinlined ht).2 (.inl hx), hne⟩
      · have hread := (p.graph.ownerOf_cases y).resolve_right fun h => hne h.1
        exact ⟨t, ht, _, (hinlined ht).2 (.inr ⟨y, hy, hread⟩), hne⟩
    · exact ⟨t, ht, a, (hinlined ht).2 (.inr ⟨y, hy, ha⟩), hne⟩

/-! ## The limited statement -/

/-- The limit of the plan is applied to the rows of `s`, each of which counts once, and nowhere else
in the statement that lists the roots. -/
structure LimitedAt (p : QueryPlan) (d : Dialect) (s : Select) : Prop where
  only : (p.limitedKeys d).levels.filter (·.isLimited) = [s]
  limit : s.limit = p.clauses.limit
  offset : s.offset = p.clauses.offset
  distinct : s.distinct = true

/-- The rows of `s` are the keys of the roots, out of a derived table in which the rows of the joins
stand in the order that the query asks for. -/
structure CountsRoots (p : QueryPlan) (names : AliasNames) (s : Select) : Prop where
  items : s.items = keyItems limitTable p.rootKeys
  source : ∃ ordered, s.source = .derived ordered limitTable false ∧ ordered.distinct = false ∧
    ordered.items = keyItems (names.get p.graph.root.id) p.rootKeys ∧
      ordered.orderBy = OrderTerm.orders names p.rootClauses.orderBy
  bare : s.joins = [] ∧ s.filter = [] ∧ s.groupBy = [] ∧ s.having = none ∧ s.orderBy = []

/-- The rows of `s` are the keys of the roots with the expressions that they are ordered by, one of
which reads a joined table when the order does. -/
structure CountsOutputs (p : QueryPlan) (names : AliasNames) (s : Select) : Prop where
  items : s.items = keyItems (names.get p.graph.root.id) p.rootKeys ++
    p.keyOutputs.map fun e => ⟨e.terms names, none⟩
  joined : (∃ e ∈ p.keyOutputs, p.ReadsJoin e) ↔ p.OrderReadsJoin

/-- The statement that has the limit. -/
def limitLevel (p : QueryPlan) : Select :=
  let roots := p.rootSelect (p.shadowAliases.getD p.aliases)
  let rows := if p.ordersByJoin then projectKeys p.rootKeys true roots limitTable false else roots
  { rows with limit := p.clauses.limit, offset := p.clauses.offset }

theorem levels_projectKeys {keys : List String} {distinct spelled : Bool} {name : String} :
    (projectKeys keys distinct s name spelled).levels.filter (·.isLimited) =
      s.levels.filter (·.isLimited) :=
  List.filter_cons_of_neg Bool.false_ne_true

theorem limitedKeys_levels (h : p.clauses.isLimited = true) (d : Dialect) :
    (p.limitedKeys d).levels.filter (·.isLimited) = [p.limitLevel] := by
  have hlimited {s : Select} (hs : s.source.levels.filter (·.isLimited) = []) :
      (Select.levels { s with limit := p.clauses.limit, offset := p.clauses.offset }).filter
        (·.isLimited) = [{ s with limit := p.clauses.limit, offset := p.clauses.offset }] := by
    have hpos : Select.isLimited { s with limit := p.clauses.limit, offset := p.clauses.offset } =
      true := h
    rw [Select.levels_eq, List.filter_cons_of_pos hpos]
    exact congrArg _ hs
  have hroots : ((p.rootSelect (p.shadowAliases.getD p.aliases)).source.levels.filter
      (·.isLimited)) = [] := rfl
  simp only [limitedKeys, limitLevel]
  by_cases ho : p.ordersByJoin = true
  · have hkeys := hlimited (s := projectKeys p.rootKeys true
      (p.rootSelect (p.shadowAliases.getD p.aliases)) limitTable false) rfl
    rw [if_pos ho, if_pos ho]
    split
    · rw [levels_projectKeys, hkeys]
    · exact hkeys
  · have hkeys := hlimited hroots
    rw [if_neg ho, if_neg ho]
    split
    · rw [levels_projectKeys, hkeys]
    · split
      · rw [levels_projectKeys, hkeys]
      · exact hkeys

theorem limitedAt (h : p.clauses.isLimited = true) (d : Dialect) : p.LimitedAt d p.limitLevel := by
  refine ⟨limitedKeys_levels h d, rfl, rfl, ?_⟩
  simp only [limitLevel]
  split
  · rfl
  · rename_i ho
    exact congrArg (!·) (Bool.eq_false_of_not_eq_true ho)

theorem keyOutputs_of_ordersByJoin (h : p.ordersByJoin = true) : p.keyOutputs = [] := by
  rw [keyOutputs, if_pos h, List.map_nil]

theorem limitLevel_countsRoots (h : p.ordersByJoin = true) :
    p.CountsRoots (p.shadowAliases.getD p.aliases) p.limitLevel := by
  simp only [limitLevel, if_pos h]
  refine ⟨rfl, ⟨_, rfl, congrArg (!·) h, ?_, rfl⟩, rfl, rfl, rfl, rfl, rfl⟩
  rw [rootSelect_eq, keyOutputs_of_ordersByJoin h]
  exact List.append_nil _

theorem not_readsJoin_of_isRootKey (h : p.isRootKey e = true) :
    ¬p.ReadsJoin (e.inlined p.clauses) := by
  obtain ⟨⟨id, column⟩, hcolumn, hkey⟩ := (Option.any_eq_true ..).1 h
  have hpieces := Expr.pieces_of_asColumn? hcolumn
  have hself : (e.inlined p.clauses).pieces = [.column id column] := by
    rw [← hpieces]
    exact inlinePieces_eq_self (by simp [hpieces]) _
  rintro ⟨a, ha, hne⟩
  rw [Expr.reads_eq, hself, Piece.mem_readsAll] at ha
  obtain ⟨x, hx, ha⟩ := ha
  rw [List.mem_singleton.1 hx, Piece.reads, AliasSet.mem_ofList, List.mem_singleton] at ha
  exact hne (ha.trans (beq_iff_eq.1 (Bool.and_eq_true_iff.1 hkey).1))

theorem limitLevel_countsOutputs (h : p.ordersByJoin = false) :
    p.CountsOutputs (p.shadowAliases.getD p.aliases) p.limitLevel := by
  have hne : ¬p.ordersByJoin = true := Bool.eq_false_iff.1 h
  constructor
  · simp only [limitLevel, if_neg hne]
    rw [rootSelect_eq, termsEach_eq, List.map_map]
    rfl
  · have houtputs : p.keyOutputs = p.orderOutputs.map (·.inlined p.clauses) := by
      rw [keyOutputs, if_neg hne]
    rw [houtputs]
    constructor
    · rintro ⟨e, he, hread⟩
      obtain ⟨y, hy, rfl⟩ := List.mem_map.1 he
      obtain ⟨-, t, ht, rfl⟩ := mem_orderOutputs.1 hy
      exact ⟨t, ht, hread⟩
    · rintro ⟨t, ht, hread⟩
      have hkey : p.isRootKey t.expr = false :=
        Bool.eq_false_iff.2 fun hkey => not_readsJoin_of_isRootKey hkey hread
      exact ⟨_, List.mem_map_of_mem (mem_orderOutputs.2 ⟨hkey, t, ht, rfl⟩), hread⟩

theorem not_countsRoots {names : AliasNames} (h : p.ordersByJoin = false) :
    ¬p.CountsRoots names p.limitLevel := by
  rintro ⟨-, ⟨ordered, hsource, -⟩, -⟩
  simp only [limitLevel, if_neg (Bool.eq_false_iff.1 h)] at hsource
  cases hsource

end QueryPlan

/-! ## Plans -/

namespace Sample

/-- Users with their phones, in the order of the numbers. -/
def numbered : Text :=
  "SELECT u.id FROM User u LEFT JOIN u.phones p ORDER BY p.number LIMIT 10".toList

/-- Users with their phones, in the order of a label made of both. -/
def labelled : Text :=
  ("SELECT CONCAT(u.name, p.number) label FROM User u LEFT JOIN u.phones p " ++
    "ORDER BY label LIMIT 10").toList

end Sample

/-- The limit of a plan counts the roots just when an order term reads a joined table as it is
written; what the order reads after all is either that or hidden behind the name of a select
expression that also reads the root. -/
theorem plan_limit (h : plan env T = .ok p) (hd : p.usesLimitSubquery d = true) :
    ∃ shadow s, p.shadowAliases = some shadow ∧ p.LimitedAt d s ∧
      (p.CountsRoots shadow s ↔ p.ordersByJoin = true) ∧
      (p.ordersByJoin = false → p.CountsOutputs shadow s) ∧
      (p.OrderReadsJoin ↔ p.ordersByJoin = true ∨ p.OrderNamesMixed) := by
  obtain ⟨n, hp⟩ := plan_over h
  obtain ⟨shadow, hshadow⟩ := QueryPlan.exists_shadow hd
  have hnames : p.shadowAliases.getD p.aliases = shadow := by rw [hshadow, Option.getD_some]
  have hlimited : p.clauses.isLimited = true := hp.limited (by rw [hshadow, Option.isSome_some])
  refine ⟨shadow, p.limitLevel, hshadow, QueryPlan.limitedAt hlimited d, ⟨fun hroots => ?_, ?_⟩, ?_,
    QueryPlan.orderReadsJoin_iff hp⟩
  · exact Bool.eq_true_of_not_eq_false fun ho => QueryPlan.not_countsRoots ho hroots
  · exact fun ho => hnames ▸ QueryPlan.limitLevel_countsRoots ho
  · exact fun ho => hnames ▸ QueryPlan.limitLevel_countsOutputs ho

/-- The numbers of phones are ordered by, so that users are counted. -/
theorem plan_limit_numbered : ∃ p s,
    plan Sample.compiler.toSurroundings Sample.numbered = .ok p ∧ p.OrderReadsJoin ∧
      p.LimitedAt .mysql s ∧ p.CountsRoots ["u2", "p2"] s := by
  obtain ⟨p, hp, hlimit, hnames, ho⟩ : ∃ p,
      plan Sample.compiler.toSurroundings Sample.numbered = .ok p ∧
        p.usesLimitSubquery .mysql = true ∧ p.shadowAliases = some ["u2", "p2"] ∧
          p.ordersByJoin = true := by decide +kernel
  obtain ⟨shadow, s, hshadow, hat, hroots, -, hreads⟩ := plan_limit hp hlimit
  cases hnames.symm.trans hshadow
  exact ⟨p, s, hp, hreads.2 (.inl ho), hat, hroots.2 ho⟩

/-- The label reads the numbers of phones, but its name reads users only: several labels of one user
count several times. -/
theorem limit_counts_labels : ∃ p s e,
    plan Sample.compiler.toSurroundings Sample.labelled = .ok p ∧
      p.usesLimitSubquery .pgsql = true ∧ p.OrderReadsJoin ∧ p.LimitedAt .pgsql s ∧
      (∀ names, ¬p.CountsRoots names s) ∧ p.ReadsJoin e ∧ ⟨e.terms ["u2", "p2"], none⟩ ∈ s.items := by
  obtain ⟨p, hp, hlimit, hnames, ho, hlimited, hread⟩ : ∃ p,
      plan Sample.compiler.toSurroundings Sample.labelled = .ok p ∧
        p.usesLimitSubquery .pgsql = true ∧ p.shadowAliases = some ["u2", "p2"] ∧
          p.ordersByJoin = false ∧ p.clauses.isLimited = true ∧ p.OrderReadsJoin := by decide +kernel
  have houtputs := QueryPlan.limitLevel_countsOutputs ho
  rw [hnames, Option.getD_some] at houtputs
  obtain ⟨e, he, hjoin⟩ := houtputs.joined.2 hread
  refine ⟨p, p.limitLevel, e, hp, hlimit, hread, QueryPlan.limitedAt hlimited _,
    fun names => QueryPlan.not_countsRoots ho, hjoin, ?_⟩
  rw [houtputs.items]
  exact List.mem_append_right _ (List.mem_map_of_mem he)

end ObjectQuery
