import Mathlib
import ObjectQuery.Plan.Reads

/-! # Bounds on what is read

`AliasSet.Below s n` says that all members of a set are less than `n`. The aliases that an
expression or a clause reads are bounded as soon as those of its parts are. -/

namespace ObjectQuery

variable {s t : AliasSet} {a : AliasId} {m n : Nat}

namespace AliasSet

/-- All members are less than `n`. -/
def Below (s : AliasSet) (n : Nat) : Prop := ∀ a ∈ s, a < n

theorem Below.mono (h : s.Below m) (hn : m ≤ n) : s.Below n := fun a ha =>
  Nat.lt_of_lt_of_le (h a ha) hn

theorem below_empty : Below ∅ n := fun a ha => absurd ha (not_mem_empty a)

theorem below_ofList {l : List AliasId} : (ofList l).Below n ↔ ∀ a ∈ l, a < n := by
  simp [Below]

theorem below_union : (s ∪ t).Below n ↔ s.Below n ∧ t.Below n := by
  simp only [Below, mem_union]
  exact ⟨fun h => ⟨fun a ha => h a (.inl ha), fun a ha => h a (.inr ha)⟩,
    fun h a ha => ha.elim (h.1 a) (h.2 a)⟩

theorem below_insert : (s.insert a).Below n ↔ a < n ∧ s.Below n := by
  simp [Below]

theorem Below.filter {p : AliasId → Bool} (h : s.Below n) : (s.filter p).Below n := fun a ha =>
  h a (mem_filter.1 ha).1

theorem Below.erase (h : s.Below n) : (s.erase a).Below n := h.filter

end AliasSet

/-! ## Expressions -/

theorem Piece.mem_readsAll {ps : List Piece} : a ∈ Piece.readsAll ps ↔ ∃ p ∈ ps, a ∈ p.reads := by
  induction ps with
  | nil => simp [Piece.readsAll]
  | cons p ps ih => simp [Piece.readsAll, ih]

theorem Piece.below_append {ps qs : List Piece} :
    (Piece.readsAll (ps ++ qs)).Below n ↔ (Piece.readsAll ps).Below n ∧ (Piece.readsAll qs).Below n := by
  simp only [AliasSet.Below, Piece.mem_readsAll, List.mem_append]
  constructor
  · intro h
    exact ⟨fun a ⟨p, hp, ha⟩ => h a ⟨p, .inl hp, ha⟩, fun a ⟨p, hp, ha⟩ => h a ⟨p, .inr hp, ha⟩⟩
  · rintro ⟨h1, h2⟩ a ⟨p, hp | hp, ha⟩
    · exact h1 a ⟨p, hp, ha⟩
    · exact h2 a ⟨p, hp, ha⟩

/-- Canonical form leaves out empty texts and joins texts that are neighbours. -/
theorem canonicalPieces_induction {R : List Piece → List Piece → Prop} (nil : R [] [])
    (cons : ∀ p ps qs, R ps qs → R (p :: ps) (p :: qs))
    (empty : ∀ ps qs, R ps qs → R (.text [] :: ps) qs)
    (merge : ∀ t u ps qs, R ps (.text u :: qs) → R (.text t :: ps) (.text (t ++ u) :: qs))
    (ps : List Piece) : R ps (canonicalPieces ps) := by
  fun_induction canonicalPieces ps with
  | case1 => exact nil
  | case2 t rest u rest' h ih => exact merge t u _ _ (h ▸ ih)
  | case3 t rest ht _ ih =>
    rw [List.isEmpty_iff.1 ht]
    exact empty _ _ ih
  | case4 t rest _ _ ih => exact cons _ _ _ ih
  | case5 p rest _ ih => exact cons _ _ _ ih

/-- Only texts are changed by canonical form. -/
theorem mem_canonicalPieces_iff {ps : List Piece} {p : Piece}
    (hp : ∀ t, p ≠ .text t) : p ∈ canonicalPieces ps ↔ p ∈ ps := by
  refine canonicalPieces_induction (R := fun ps qs => p ∈ qs ↔ p ∈ ps) Iff.rfl ?_ ?_ ?_ ps
  · intro q ps qs ih
    rw [List.mem_cons, List.mem_cons, ih]
  · intro ps qs ih
    rw [List.mem_cons, ih, or_iff_right (hp [])]
  · intro t u ps qs ih
    rw [List.mem_cons, or_iff_right (hp _)] at ih ⊢
    rw [List.mem_cons, or_iff_right (hp _), ih]

/-- Putting pieces into canonical form does not change what they read. -/
theorem mem_readsAll_canonicalPieces {ps : List Piece} :
    a ∈ Piece.readsAll (canonicalPieces ps) ↔ a ∈ Piece.readsAll ps := by
  refine canonicalPieces_induction
    (R := fun ps qs => a ∈ Piece.readsAll qs ↔ a ∈ Piece.readsAll ps) Iff.rfl ?_ ?_ ?_ ps
  · intro p ps qs ih
    simp [Piece.readsAll, ih]
  · intro ps qs ih
    simpa [Piece.readsAll, Piece.reads] using ih
  · intro t u ps qs ih
    simpa [Piece.readsAll, Piece.reads] using ih

theorem Expr.reads_eq (e : Expr) : e.reads = Piece.readsAll e.pieces := by
  cases e; rfl

theorem Expr.below_ofPieces {ps : List Piece} {aggregate : Bool}
    (h : (Piece.readsAll ps).Below n) : (Expr.ofPieces ps aggregate).reads.Below n := fun a ha =>
  h a (mem_readsAll_canonicalPieces.1 (by rwa [Expr.reads_eq] at ha))

theorem Expr.mem_readsAll {es : List Expr} : a ∈ Expr.readsAll es ↔ ∃ e ∈ es, a ∈ e.reads := by
  induction es with
  | nil => simp [Expr.readsAll]
  | cons e es ih => simp [Expr.readsAll, ih]

theorem Expr.below_readsAll {es : List Expr} (h : ∀ e ∈ es, e.reads.Below n) :
    (Expr.readsAll es).Below n := fun a ha => by
  obtain ⟨e, he, ha⟩ := Expr.mem_readsAll.1 ha
  exact h e he a ha

theorem Expr.below_readsOption {e : Option Expr} (h : ∀ x ∈ e, x.reads.Below n) :
    (Expr.readsOption e).Below n := by
  cases e with
  | none => exact AliasSet.below_empty
  | some e => exact h e rfl

/-! ## Joins and clauses -/

theorem JoinCondition.mem_readsWith {structural : AliasSet} {c : Option JoinCondition}
    (h : a ∈ JoinCondition.readsWith structural c) :
    a ∈ structural ∨ ∃ x ∈ c, a ∈ x.expr.reads := by
  cases c with
  | none => exact .inl h
  | some c =>
    obtain ⟨kind, e⟩ := c
    cases kind with
    | replacing => exact .inr ⟨_, rfl, h⟩
    | extending => exact (AliasSet.mem_union.1 h).imp_right fun h => ⟨_, rfl, h⟩

/-- What a node is joined on: its parent, and what its predicates read besides itself. -/
theorem JoinNode.mem_dependsOn {j : JoinNode} (h : a ∈ j.dependsOn) :
    a ≠ j.id ∧ (a ∈ j.parent ∨ (∃ e ∈ j.structural, a ∈ e.reads) ∨
      (∃ c ∈ j.condition, a ∈ c.expr.reads) ∨ ∃ e ∈ j.extra, a ∈ e.reads) := by
  cases j with
  | mk use structural condition extra =>
    obtain ⟨h, hne⟩ := AliasSet.mem_erase.1 h
    refine ⟨hne, ?_⟩
    rw [AliasSet.mem_union, AliasSet.mem_union] at h
    rcases h with (h | h) | h
    · exact .inl (Option.mem_toList.1 (AliasSet.mem_ofList.1 h))
    · rcases JoinCondition.mem_readsWith h with h | h
      · cases structural with
        | none => exact absurd h (AliasSet.not_mem_empty a)
        | some e => exact .inr (.inl ⟨e, rfl, h⟩)
      · exact .inr (.inr (.inl h))
    · exact .inr (.inr (.inr (Expr.mem_readsAll.1 h)))

theorem JoinNode.mem_dependsOnAll {js : List JoinNode} :
    a ∈ JoinNode.dependsOnAll js ↔ ∃ j ∈ js, a ∈ j.dependsOn := by
  induction js with
  | nil => simp [JoinNode.dependsOnAll]
  | cons j js ih => simp [JoinNode.dependsOnAll, ih]

theorem JoinGraph.below_dependsOn {g : JoinGraph} (h : ∀ j ∈ g.nodes, j.dependsOn.Below n) :
    g.dependsOn.Below n := by
  cases g with
  | mk root joins =>
    refine AliasSet.below_union.2 ⟨h root List.mem_cons_self, fun a ha => ?_⟩
    obtain ⟨j, hj, ha⟩ := JoinNode.mem_dependsOnAll.1 ha
    exact h j (List.mem_cons_of_mem _ hj) a ha

theorem SelectItem.below_readsAll {items : List SelectItem}
    (h : ∀ i ∈ items, i.reads.Below n) : (SelectItem.readsAll items).Below n := by
  induction items with
  | nil => exact AliasSet.below_empty
  | cons i items ih =>
    exact AliasSet.below_union.2
      ⟨h i List.mem_cons_self, ih fun j hj => h j (List.mem_cons_of_mem _ hj)⟩

theorem OrderTerm.below_readsAll {ts : List OrderTerm} (h : ∀ t ∈ ts, t.expr.reads.Below n) :
    (OrderTerm.readsAll ts).Below n := by
  induction ts with
  | nil => exact AliasSet.below_empty
  | cons t ts ih =>
    cases t with
    | mk e direction implicit =>
      exact AliasSet.below_union.2
        ⟨h _ List.mem_cons_self, ih fun u hu => h u (List.mem_cons_of_mem _ hu)⟩

/-- A bound on what clauses read. -/
structure ClauseSet.Below (c : ClauseSet) (n : Nat) : Prop where
  select : ∀ i ∈ c.select, i.reads.Below n
  filter : ∀ e ∈ c.filter, e.reads.Below n
  groupBy : ∀ e ∈ c.groupBy, e.reads.Below n
  having : ∀ e ∈ c.having, e.reads.Below n
  orderBy : ∀ t ∈ c.orderBy, t.expr.reads.Below n

theorem ClauseSet.Below.reads {c : ClauseSet} (h : c.Below n) : c.reads.Below n := by
  cases c
  obtain ⟨h1, h2, h3, h4, h5⟩ := h
  refine AliasSet.below_union.2 ⟨AliasSet.below_union.2 ⟨AliasSet.below_union.2
    ⟨AliasSet.below_union.2 ⟨?_, ?_⟩, ?_⟩, ?_⟩, ?_⟩
  · exact SelectItem.below_readsAll h1
  · exact Expr.below_readsOption h2
  · exact Expr.below_readsAll h3
  · exact Expr.below_readsOption h4
  · exact OrderTerm.below_readsAll h5

/-- A bound on what a subquery reads of the queries around it. -/
theorem Subquery.below_outerReads {q : Subquery} (hc : q.clauses.Below n)
    (hg : ∀ j ∈ q.graph.nodes, j.dependsOn.Below n) : q.outerReads.Below n := by
  cases q with
  | mk graph clauses emitted =>
    exact AliasSet.Below.filter (AliasSet.below_union.2 ⟨hc.reads, JoinGraph.below_dependsOn hg⟩)

end ObjectQuery
