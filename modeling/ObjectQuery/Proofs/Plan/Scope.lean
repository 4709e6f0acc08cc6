import ObjectQuery.Proofs.Plan.Emission
import ObjectQuery.Proofs.Plan.Retention
import ObjectQuery.Proofs.Sql.Lowering

/-! # Scopes

An alias may be read where it is introduced: by the joins of the query itself, by those up to the
join at hand in the predicates of a join, or by a query around it (`InScope`). A subquery reads from
the outside exactly what it does not introduce, so that it is in scope as soon as these aliases are
visible, whatever its own joins and clauses read of each other.

* `InScope`: every alias is introduced where it is read;
* `Subquery.Formed`, `Expr.Over`: what is known of resolved queries and expressions;
* `QueryFormed.inScope`, `Subquery.Formed.inScope`: what they read is in scope. -/

namespace ObjectQuery

variable {P P' visible visible' : Set AliasId} {listed listed' : AliasId → Nat → Prop}
  {g : JoinGraph} {c : ClauseSet} {e : Expr} {n : JoinNode} {a : AliasId} {q : Subquery}
  {emitted : List AliasId} {ps : List Piece} {x : Piece}

/-! ## What is read -/

theorem SelectItem.mem_readsAll {items : List SelectItem} :
    a ∈ SelectItem.readsAll items ↔ ∃ i ∈ items, a ∈ i.reads := by
  induction items with
  | nil => simp [SelectItem.readsAll]
  | cons i items ih => simp [SelectItem.readsAll, ih]

theorem OrderTerm.mem_readsAll {ts : List OrderTerm} :
    a ∈ OrderTerm.readsAll ts ↔ ∃ t ∈ ts, a ∈ t.expr.reads := by
  induction ts with
  | nil => simp [OrderTerm.readsAll]
  | cons t ts ih => cases t; simp [OrderTerm.readsAll, ih]

theorem Expr.mem_readsOption {e? : Option Expr} :
    a ∈ Expr.readsOption e? ↔ ∃ e ∈ e?.toList, a ∈ e.reads := by
  cases e? <;> simp [Expr.readsOption]

theorem SelectItem.mem_reads {i : SelectItem} :
    a ∈ i.reads ↔ a = i.owner ∨ ∃ e ∈ i.expr?, a ∈ e.reads := by
  cases i <;> simp [SelectItem.reads, SelectItem.owner, SelectItem.expr?]

/-- A select list reads the aliases of its expressions and those that its items belong to. -/
theorem ClauseSet.mem_readsAll_select : a ∈ SelectItem.readsAll c.select ↔
    (∃ i ∈ c.select, a = i.owner) ∨ ∃ e ∈ c.selectExprs, a ∈ e.reads := by
  simp only [SelectItem.mem_readsAll, SelectItem.mem_reads, selectExprs, List.mem_filterMap]
  constructor
  · rintro ⟨i, hi, rfl | ⟨e, he, ha⟩⟩
    · exact .inl ⟨i, hi, rfl⟩
    · exact .inr ⟨e, ⟨i, hi, he⟩, ha⟩
  · rintro (⟨i, hi, rfl⟩ | ⟨e, ⟨i, hi, he⟩, ha⟩)
    · exact ⟨i, hi, .inl rfl⟩
    · exact ⟨i, hi, .inr ⟨e, he, ha⟩⟩

theorem ClauseSet.mem_reads : a ∈ c.reads ↔
    (∃ i ∈ c.select, a = i.owner) ∨ ∃ e ∈ c.rowExprs ++ c.laterExprs, a ∈ e.reads := by
  have hselect := mem_readsAll_select (c := c) (a := a)
  cases c with
  | mk distinct select filter groupBy having orderBy limit offset =>
    simp only [reads, rowExprs, laterExprs, AliasSet.mem_union, hselect, Expr.mem_readsOption,
      Expr.mem_readsAll, OrderTerm.mem_readsAll, List.mem_append, List.mem_map, or_and_right,
      exists_or, exists_exists_and_eq_and, or_assoc]

/-- The conditions that a node is joined on. -/
def JoinNode.conjuncts (n : JoinNode) : List Expr := n.predicates.map (·.1)

theorem JoinNode.mem_exprs_of_mem_conjuncts (he : e ∈ n.conjuncts) : e ∈ n.exprs := by
  obtain ⟨p, hp, rfl⟩ := List.mem_map.1 he
  exact mem_exprs_of_mem_predicates hp

/-- What a node is joined on: its parent, and what the conditions of its join read, besides its own
alias. -/
theorem JoinNode.mem_dependsOn_iff : a ∈ n.dependsOn ↔
    a ≠ n.id ∧ (a ∈ n.parent ∨ ∃ e ∈ n.conjuncts, a ∈ e.reads) := by
  obtain ⟨use, structural, condition, extra⟩ := n
  have hextra : (∃ e ∈ (extra.map fun e => (e, false)).map (·.1), a ∈ e.reads) ↔
      a ∈ Expr.readsAll extra := by
    simp [Expr.mem_readsAll]
  have hstructural : (∃ e ∈ (structural.toList.map fun e => (e, false)).map (·.1), a ∈ e.reads) ↔
      a ∈ Expr.readsOption structural := by
    simp [Expr.mem_readsOption]
  rw [dependsOn, AliasSet.mem_erase, and_comm, AliasSet.mem_union, AliasSet.mem_union,
    AliasSet.mem_ofList, Option.mem_toList, or_assoc, ← hextra]
  simp only [conjuncts, predicates, List.map_append, List.mem_append, or_and_right, exists_or]
  refine and_congr_right fun _ => or_congr_right (or_congr_left ?_)
  obtain - | ⟨kind, k⟩ := condition
  · exact hstructural.symm
  · cases kind with
    | replacing => simp [JoinCondition.readsWith]
    | extending => simp [JoinCondition.readsWith, Expr.mem_readsOption, or_and_right, exists_or]

/-- The conditions of a join read its own alias and those it depends on. -/
theorem JoinNode.mem_dependsOn_of_reads (he : e ∈ n.conjuncts) (ha : a ∈ e.reads) :
    a = n.id ∨ a ∈ n.dependsOn :=
  or_iff_not_imp_left.2 fun hid => mem_dependsOn_iff.2 ⟨hid, .inr ⟨e, he, ha⟩⟩

theorem JoinNode.mem_dependsOn_of_parent (h : n.parent = some a) (hne : a ≠ n.id) :
    a ∈ n.dependsOn :=
  mem_dependsOn_iff.2 ⟨hne, .inl h⟩

theorem Expr.pieces_of_asColumn? {column : String} (h : e.asColumn? = some (a, column)) :
    e.pieces = [.column a column] := by
  rw [asColumn?] at h
  split at h
  · rename_i he
    cases h
    exact he
  · cases h

theorem Expr.mem_reads_of_asColumn? {column : String} (h : e.asColumn? = some (a, column)) :
    a ∈ e.reads := by
  rw [reads_eq, pieces_of_asColumn? h]
  exact Piece.mem_readsAll.2 ⟨_, List.mem_singleton_self _,
    AliasSet.mem_ofList.2 (List.mem_singleton_self _)⟩

/-! ## Aliases in scope -/

/-- The select list holds the expression with the given owner and ordinal. -/
def ClauseSet.Lists (c : ClauseSet) (owner : AliasId) (ordinal : Nat) : Prop :=
  ∃ e name, .expression owner ordinal e name ∈ c.select

/-- The piece is in scope, subqueries apart: the alias that it reads is visible, and the select
expression that it refers to is listed. -/
def Piece.InScope (visible : Set AliasId) (listed : AliasId → Nat → Prop) : Piece → Prop
  | .text _ | .placeholder _ | .subquery _ => True
  | .column id _ | .discriminator id _ => id ∈ visible
  | .output owner ordinal => listed owner ordinal

/-- Every alias that a query reads is introduced where it is read, by the query, which writes the
joins `emitted`, or by one around it, whose aliases are `visible`. All aliases that are introduced,
here or by a query inside, have the property `P`. -/
inductive InScope (P : Set AliasId) :
    (visible : Set AliasId) → JoinGraph → ClauseSet → (emitted : List AliasId) → Prop
  | intro {visible : Set AliasId} {g : JoinGraph} {c : ClauseSet} {emitted : List AliasId}
    (root : emitted.head? = some g.root.id)
    (declared : ∀ a ∈ emitted, a ∈ g.aliases)
    (introduced : ∀ a ∈ emitted, a ∈ P)
    (fields : ∀ f, .field f ∈ c.select → f.owner ∈ visible ∪ {a | a ∈ emitted})
    (owners : ∀ o k e name, .expression o k e name ∈ c.select → o ∈ emitted)
    (rows : ∀ e ∈ c.rowExprs, ∀ x ∈ e.pieces,
      x.InScope (visible ∪ {a | a ∈ emitted}) fun _ _ => False)
    (later : ∀ e ∈ c.laterExprs, ∀ x ∈ e.pieces, x.InScope (visible ∪ {a | a ∈ emitted}) c.Lists)
    (nested : ∀ e ∈ c.rowExprs ++ c.laterExprs, ∀ q, .subquery q ∈ e.pieces →
      InScope P (visible ∪ {a | a ∈ emitted}) q.graph q.clauses q.emitted)
    (joins : ∀ pre id post n, emitted = pre ++ id :: post → g.node? id = some n →
      ∀ e ∈ n.conjuncts, ∀ x ∈ e.pieces,
        x.InScope (visible ∪ {a | a ∈ pre ++ [id]}) fun _ _ => False)
    (nestedJoins : ∀ pre id post n, emitted = pre ++ id :: post → g.node? id = some n →
      ∀ e ∈ n.conjuncts, ∀ q, .subquery q ∈ e.pieces →
        InScope P (visible ∪ {a | a ∈ pre ++ [id]}) q.graph q.clauses q.emitted) :
    InScope P visible g c emitted

/-! ## Resolved expressions -/

/-- What is known of the joins and clauses of a query that is resolved; `Q` is what is known of the
queries inside. -/
structure QueryFormed (Q : Subquery → Prop) (g : JoinGraph) (c : ClauseSet) : Prop where
  owners : ∀ o k e name, .expression o k e name ∈ c.select → o ∈ g.aliases
  rows : ∀ e ∈ c.rowExprs ++ g.nodes.flatMap (·.exprs), ∀ o k, .output o k ∉ e.pieces
  later : ∀ e ∈ c.laterExprs, ∀ o k, .output o k ∈ e.pieces → c.Lists o k
  nested : ∀ e ∈ queryExprs g c, ∀ q, .subquery q ∈ e.pieces → Q q

/-- What is known of a subquery that is resolved: the aliases that it and the queries inside it
introduce have the property `P`, its joins are joined to each other, and references to a select list
find what they refer to. -/
inductive Subquery.Formed (P : Set AliasId) : Subquery → Prop
  | intro {q : Subquery} (introduced : ∀ a ∈ q.graph.aliases, a ∈ P)
    (parents : ∀ n ∈ q.graph.nodes, ∀ a ∈ n.parent, a ∈ q.graph.aliases)
    (owners : ∀ o k e name, .expression o k e name ∈ q.clauses.select → o ∈ q.graph.aliases)
    (rows : ∀ e ∈ q.clauses.rowExprs ++ q.graph.nodes.flatMap (·.exprs), ∀ o k,
      .output o k ∉ e.pieces)
    (later : ∀ e ∈ q.clauses.laterExprs, ∀ o k, .output o k ∈ e.pieces → q.clauses.Lists o k)
    (nested : ∀ e ∈ queryExprs q.graph q.clauses, ∀ r, .subquery r ∈ e.pieces → Formed P r) :
    Formed P q

theorem Subquery.Formed.mono (hP : P ⊆ P') (h : q.Formed P) : q.Formed P' := by
  induction h with
  | intro introduced parents owners rows later _ ih =>
    exact .intro (fun a ha => hP (introduced a ha)) parents owners rows later ih

/-- What is known of a piece that is resolved: it reads visible aliases, refers to listed select
expressions, and the queries inside it introduce fresh aliases. -/
def Piece.Over (visible : Set AliasId) (listed : AliasId → Nat → Prop) (fresh : Set AliasId) :
    Piece → Prop
  | .text _ | .placeholder _ => True
  | .column id _ | .discriminator id _ => id ∈ visible
  | .output owner ordinal => owner ∈ visible ∧ listed owner ordinal
  | .subquery q => (∀ a ∈ q.outerReads, a ∈ visible) ∧ q.Formed fresh

/-- What is known of an expression that is resolved. -/
def Expr.Over (visible : Set AliasId) (listed : AliasId → Nat → Prop) (fresh : Set AliasId)
    (e : Expr) : Prop :=
  ∀ x ∈ e.pieces, x.Over visible listed fresh

theorem Piece.Over.mono (hv : visible ⊆ visible') (hl : ∀ o k, listed o k → listed' o k)
    (hP : P ⊆ P') (h : x.Over visible listed P) : x.Over visible' listed' P' := by
  cases x with
  | text | placeholder => trivial
  | column | discriminator => exact hv h
  | output o k => exact ⟨hv h.1, hl o k h.2⟩
  | subquery q => exact ⟨fun a ha => hv (h.1 a ha), h.2.mono hP⟩

theorem Expr.Over.mono (hv : visible ⊆ visible') (hl : ∀ o k, listed o k → listed' o k)
    (hP : P ⊆ P') (h : e.Over visible listed P) : e.Over visible' listed' P' :=
  fun x hx => (h x hx).mono hv hl hP

theorem Piece.Over.reads (h : x.Over visible listed P) (ha : a ∈ x.reads) : a ∈ visible := by
  cases x with
  | text | placeholder => exact absurd ha (AliasSet.not_mem_empty a)
  | column | discriminator =>
    rw [List.mem_singleton.1 (AliasSet.mem_ofList.1 ha)]
    exact h
  | output o k =>
    rw [List.mem_singleton.1 (AliasSet.mem_ofList.1 ha)]
    exact h.1
  | subquery q => exact h.1 a ha

theorem Expr.Over.reads (h : e.Over visible listed P) (ha : a ∈ e.reads) : a ∈ visible := by
  rw [Expr.reads_eq] at ha
  obtain ⟨x, hx, ha⟩ := Piece.mem_readsAll.1 ha
  exact (h x hx).reads ha

theorem mem_canonicalPieces (hx : x ∈ canonicalPieces ps) : x ∈ ps ∨ ∃ t, x = .text t := by
  by_cases ht : ∃ t, x = .text t
  · exact .inr ht
  · exact .inl ((mem_canonicalPieces_iff fun t he => ht ⟨t, he⟩).1 hx)

theorem Expr.Over.ofPieces {aggregate : Bool} (h : ∀ x ∈ ps, x.Over visible listed P) :
    (Expr.ofPieces ps aggregate).Over visible listed P := by
  intro x hx
  rcases mem_canonicalPieces hx with hx | ⟨t, rfl⟩
  · exact h x hx
  · trivial

/-! ## Scopes of resolved queries -/

theorem Expr.inScope_of_reads (hreads : ∀ a ∈ e.reads, a ∈ visible)
    (houtputs : ∀ o k, .output o k ∈ e.pieces → listed o k) :
    ∀ x ∈ e.pieces, x.InScope visible listed := by
  intro x hx
  have hmem {a : AliasId} (ha : a ∈ x.reads) : a ∈ visible := by
    apply hreads
    rw [Expr.reads_eq]
    exact Piece.mem_readsAll.2 ⟨x, hx, ha⟩
  cases x with
  | text | placeholder | subquery => trivial
  | column | discriminator => exact hmem (AliasSet.mem_ofList.2 (List.mem_singleton_self _))
  | output o k => exact houtputs o k hx

/-- The query inside an expression reads from the outside what the expression reads. -/
theorem Expr.mem_reads_of_subquery (hq : .subquery q ∈ e.pieces) (ha : a ∈ q.outerReads) :
    a ∈ e.reads := by
  rw [Expr.reads_eq]
  exact Piece.mem_readsAll.2 ⟨_, hq, ha⟩

theorem Subquery.mem_outerReads : a ∈ (Subquery.mk g c emitted).outerReads ↔
    (a ∈ c.reads ∨ a ∈ g.dependsOn) ∧ a ∉ g.aliases := by
  rw [outerReads, AliasSet.mem_filter, AliasSet.mem_union, Bool.not_eq_true', ← Bool.not_eq_true,
    JoinGraph.contains_iff]

theorem JoinGraph.mem_dependsOn : a ∈ g.dependsOn ↔ ∃ n ∈ g.nodes, a ∈ n.dependsOn := by
  cases g
  simp [JoinGraph.dependsOn, JoinGraph.nodes, JoinNode.mem_dependsOnAll]

/-- A query is in scope when the aliases that it does not introduce are visible, its clauses read
only joins that are written, and each join comes after those that it depends on. -/
theorem QueryFormed.inScope (h : QueryFormed (fun q => ∀ visible : Set AliasId,
      (∀ a ∈ q.outerReads, a ∈ visible) → InScope P visible q.graph q.clauses q.emitted) g c)
    (hroot : emitted.head? = some g.root.id) (hdeclared : ∀ a ∈ emitted, a ∈ g.aliases)
    (hP : ∀ a ∈ emitted, a ∈ P)
    (houter : ∀ a ∈ (Subquery.mk g c emitted).outerReads, a ∈ visible)
    (hclauses : ∀ a ∈ c.reads, a ∈ g.aliases → a ∈ emitted)
    (hjoins : ∀ pre id post n, emitted = pre ++ id :: post → g.node? id = some n →
      ∀ a ∈ n.dependsOn, a ∈ g.aliases → a ∈ pre) :
    InScope P visible g c emitted := by
  have hreads (a) (ha : a ∈ c.reads) : a ∈ visible ∪ {a | a ∈ emitted} := by
    by_cases hg : a ∈ g.aliases
    · exact .inr (hclauses a ha hg)
    · exact .inl (houter a (Subquery.mem_outerReads.2 ⟨.inl ha, hg⟩))
  have hexpr (e) (he : e ∈ c.rowExprs ++ c.laterExprs) (a) (ha : a ∈ e.reads) :
      a ∈ visible ∪ {a | a ∈ emitted} :=
    hreads a (ClauseSet.mem_reads.2 (.inr ⟨e, he, ha⟩))
  have hjoin (pre id post n) (hsplit : emitted = pre ++ id :: post) (hn : g.node? id = some n)
      (e) (he : e ∈ n.conjuncts) (a) (ha : a ∈ e.reads) :
      a ∈ visible ∪ {a | a ∈ pre ++ [id]} := by
    have hid : n.id = id := by simpa using List.find?_some hn
    rcases JoinNode.mem_dependsOn_of_reads he ha with rfl | ha
    · exact .inr (by simp [hid])
    · by_cases hg : a ∈ g.aliases
      · exact .inr (List.mem_append_left _ (hjoins pre id post n hsplit hn a ha hg))
      · exact .inl (houter a (Subquery.mem_outerReads.2
          ⟨.inr (JoinGraph.mem_dependsOn.2 ⟨n, List.mem_of_find?_eq_some hn, ha⟩), hg⟩))
  have hnode (n) (id) (hn : g.node? id = some n) (e) (he : e ∈ n.conjuncts) :
      e ∈ g.nodes.flatMap (·.exprs) :=
    List.mem_flatMap.2 ⟨n, List.mem_of_find?_eq_some hn, n.mem_exprs_of_mem_conjuncts he⟩
  refine .intro hroot hdeclared hP ?fields ?owners ?rows ?later ?nested ?joins ?nestedJoins
  case fields =>
    intro f hf
    exact hreads _ (ClauseSet.mem_reads.2 (.inl ⟨_, hf, rfl⟩))
  case owners =>
    intro o k e name hi
    exact hclauses o (ClauseSet.mem_reads.2 (.inl ⟨_, hi, rfl⟩)) (h.owners o k e name hi)
  case rows =>
    intro e he
    refine Expr.inScope_of_reads (hexpr e (List.mem_append_left _ he)) ?_
    exact fun o k => h.rows e (List.mem_append_left _ he) o k
  case later =>
    intro e he
    exact Expr.inScope_of_reads (hexpr e (List.mem_append_right _ he)) (h.later e he)
  case nested =>
    intro e he q hq
    refine h.nested e (List.mem_append_left _ he) q hq _ fun a ha => ?_
    exact hexpr e he a (e.mem_reads_of_subquery hq ha)
  case joins =>
    intro pre id post n hsplit hn e he
    refine Expr.inScope_of_reads (hjoin pre id post n hsplit hn e he) ?_
    exact fun o k => h.rows e (List.mem_append_right _ (hnode n id hn e he)) o k
  case nestedJoins =>
    intro pre id post n hsplit hn e he q hq
    refine h.nested e (List.mem_append_right _ (hnode n id hn e he)) q hq _ fun a ha => ?_
    exact hjoin pre id post n hsplit hn e he a (e.mem_reads_of_subquery hq ha)

/-- A subquery is in scope wherever the aliases are visible that it reads from the outside. -/
theorem Subquery.Formed.inScope {env : Surroundings} {levels : Nat} (h : q.Formed P)
    (hfrom : (SubqueryFrom env levels).Any q) (visible : Set AliasId)
    (hv : ∀ a ∈ q.outerReads, a ∈ visible) : InScope P visible q.graph q.clauses q.emitted := by
  induction h generalizing levels visible with
  | @intro q introduced _ owners rows later nested ih =>
    obtain ⟨T, param, off, inner, hfrom⟩ := hfrom
    cases levels with
    | zero => cases hfrom
    | succ levels =>
      have hsound := hfrom.sound
      obtain ⟨-, -, hemitted, parsed, -, hq⟩ := hfrom
      have hformed : QueryFormed (fun r => ∀ visible : Set AliasId, (∀ a ∈ r.outerReads, a ∈ visible) →
          InScope P visible r.graph r.clauses r.emitted) q.graph q.clauses :=
        ⟨owners, rows, later, fun e he r hr visible hv =>
          ih e he r hr ((hsound.expr he).pieces _ hr) visible hv⟩
      rw [hemitted]
      refine hformed.inScope rfl (fun _ ha => ha) introduced ?_ (fun _ _ ha => ha) ?_
      · cases q
        exact fun a ha => hv a ha
      · intro pre id post n hsplit hn a ha hg
        exact JoinGraph.mem_before hq.graph.declared
          (fun m hm => JoinGraph.node?_of_mem hq.graph.nodup hm) hsplit hn ha hg

end ObjectQuery
