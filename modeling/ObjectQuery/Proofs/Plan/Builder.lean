import ObjectQuery.Plan.Builder
import ObjectQuery.Proofs.Plan.Reads
import ObjectQuery.Proofs.Plan.Retention

/-! # What builders make

Whatever a builder is asked for, its pieces are the canonical form of the pieces it was given, and the
set that grew with them is what they read (`ExprBuilder.Makes`). A text is put at the end of canonical
pieces, where canonical form puts one at the front, so that the two have to commute. A graph that is
made step by step keeps with every node what the node is joined on (`GraphBuilder.Stores`).

* `Canonical`, `canonical_canonicalPieces`: canonical form;
* `ExprBuilder.Makes.call`, `ExprBuilder.run_makes`: what a call and a run keep;
* `ExprBuilder.exists_run`: every expression in canonical form is made;
* `GraphBuilder.Stores.step`, `GraphBuilder.run_ofRoot`: graphs. -/

namespace ObjectQuery

open ExprBuilder (appendText)

variable {ps : List Piece} {p : Piece} {s t : Text}

/-- The piece is a text. -/
def Piece.IsText (p : Piece) : Prop := ∃ t, p = .text t

/-- No text is empty, and no two texts stand side by side. -/
structure Canonical (ps : List Piece) : Prop where
  nonempty : .text [] ∉ ps
  apart : ps.IsChain fun p q => ¬ (p.IsText ∧ q.IsText)

theorem canonical_cons : Canonical (p :: ps) ↔
    p ≠ .text [] ∧ (∀ q ∈ ps.head?, ¬ (p.IsText ∧ q.IsText)) ∧ Canonical ps := by
  constructor
  · rintro ⟨hne, hapart⟩
    obtain ⟨hp, hps⟩ := not_or.1 (List.mem_cons.not.1 hne)
    obtain ⟨hhead, hchain⟩ := List.isChain_cons.1 hapart
    exact ⟨Ne.symm hp, hhead, hps, hchain⟩
  · rintro ⟨hp, hhead, hps, hchain⟩
    exact ⟨List.mem_cons.not.2 (not_or.2 ⟨Ne.symm hp, hps⟩), List.isChain_cons.2 ⟨hhead, hchain⟩⟩

/-! ## Canonical form -/

/-- Canonical pieces with a text before them. -/
def prependText (t : Text) : List Piece → List Piece
  | .text u :: ps => .text (t ++ u) :: ps
  | ps => if t.isEmpty then ps else .text t :: ps

theorem canonicalPieces_text : canonicalPieces (.text t :: ps) = prependText t (canonicalPieces ps) :=
  rfl

theorem canonicalPieces_cons (hp : ¬ p.IsText) :
    canonicalPieces (p :: ps) = p :: canonicalPieces ps := by
  cases p with
  | text t => exact absurd ⟨t, rfl⟩ hp
  | column | output | placeholder | subquery | discriminator => rfl

theorem prependText_nil : prependText t [] = if t.isEmpty then [] else [.text t] := rfl

theorem prependText_cons (hp : ¬ p.IsText) :
    prependText t (p :: ps) = if t.isEmpty then p :: ps else .text t :: p :: ps := by
  cases p with
  | text t => exact absurd ⟨t, rfl⟩ hp
  | column | output | placeholder | subquery | discriminator => rfl

theorem appendText_cons (hp : ¬ p.IsText) : appendText t (p :: ps) = p :: appendText t ps := by
  cases p with
  | text u => exact absurd ⟨u, rfl⟩ hp
  | column | output | placeholder | subquery | discriminator => rfl

theorem Canonical.prependText (h : Canonical ps) : Canonical (prependText t ps) := by
  rcases ps with - | ⟨p, ps⟩
  · rw [prependText_nil]
    split
    · exact h
    · rename_i ht
      exact canonical_cons.2 ⟨by simpa using ht, nofun, h⟩
  · by_cases hp : p.IsText
    · obtain ⟨u, rfl⟩ := hp
      obtain ⟨hu, hapart, hps⟩ := canonical_cons.1 h
      refine canonical_cons.2
        ⟨fun he => hu ?_, fun q hq hboth => hapart q hq ⟨⟨u, rfl⟩, hboth.2⟩, hps⟩
      injection he with he
      rw [(List.append_eq_nil_iff.1 he).2]
    · rw [prependText_cons hp]
      split
      · exact h
      · rename_i ht
        refine canonical_cons.2 ⟨by simpa using ht, fun q hq hboth => hp ?_, h⟩
        exact Option.some_inj.1 hq ▸ hboth.2

theorem canonical_canonicalPieces (ps : List Piece) : Canonical (canonicalPieces ps) := by
  induction ps with
  | nil => exact ⟨nofun, .nil⟩
  | cons p ps ih =>
    by_cases hp : p.IsText
    · obtain ⟨t, rfl⟩ := hp
      exact ih.prependText
    · rw [canonicalPieces_cons hp]
      exact canonical_cons.2 ⟨fun h => hp ⟨[], h⟩, fun q _ hboth => hp hboth.1, ih⟩

theorem prependText_snoc (hp : ¬ p.IsText) :
    prependText t (ps ++ [p]) = prependText t ps ++ [p] := by
  rcases ps with - | ⟨q, ps⟩
  · rw [List.nil_append, prependText_cons hp, prependText_nil]
    split <;> rfl
  · by_cases hq : q.IsText
    · obtain ⟨u, rfl⟩ := hq
      rfl
    · rw [List.cons_append, prependText_cons hq, prependText_cons hq]
      split <;> rfl

theorem prependText_appendText :
    prependText s (appendText t ps) = appendText t (prependText s ps) := by
  rcases ps with - | ⟨q, ps⟩
  · cases s <;> cases t <;> simp [prependText, appendText]
  · by_cases hq : q.IsText
    · obtain ⟨u, rfl⟩ := hq
      rcases ps with - | ⟨r, ps⟩
      · simp [prependText, appendText]
      · rfl
    · rw [appendText_cons hq, prependText_cons hq, prependText_cons hq]
      split
      · rw [appendText_cons hq]
      · rw [appendText, appendText_cons hq]
        exact nofun

theorem canonicalPieces_snoc (hp : ¬ p.IsText) :
    canonicalPieces (ps ++ [p]) = canonicalPieces ps ++ [p] := by
  induction ps with
  | nil => exact canonicalPieces_cons hp
  | cons q ps ih =>
    rw [List.cons_append]
    by_cases hq : q.IsText
    · obtain ⟨t, rfl⟩ := hq
      rw [canonicalPieces_text, canonicalPieces_text, ih, prependText_snoc hp]
    · rw [canonicalPieces_cons hq, canonicalPieces_cons hq, ih, List.cons_append]

theorem canonicalPieces_snoc_text :
    canonicalPieces (ps ++ [.text t]) = appendText t (canonicalPieces ps) := by
  induction ps with
  | nil => rfl
  | cons q ps ih =>
    rw [List.cons_append]
    by_cases hq : q.IsText
    · obtain ⟨s, rfl⟩ := hq
      rw [canonicalPieces_text, canonicalPieces_text, ih, prependText_appendText]
    · rw [canonicalPieces_cons hq, canonicalPieces_cons hq, ih, appendText_cons hq]

/-! ## Expressions -/

namespace ExprBuilder

variable {b b' : ExprBuilder} {reads : AliasSet} {c : Call} {calls : List Call} {e : Expr}

/-- The piece that a call asks for, if it asks for one. -/
def Call.piece? : Call → Option Piece
  | .text t => some (.text t)
  | .column id name => some (.column id name)
  | .output owner ordinal => some (.output owner ordinal)
  | .placeholder ordinal => some (.placeholder ordinal)
  | .subquery q => some (.subquery q)
  | .discriminator id test => some (.discriminator id test)
  | .aggregate => none

/-- The call that asks for a piece. -/
def Call.ofPiece : Piece → Call
  | .text t => .text t
  | .column id name => .column id name
  | .output owner ordinal => .output owner ordinal
  | .placeholder ordinal => .placeholder ordinal
  | .subquery q => .subquery q
  | .discriminator id test => .discriminator id test

theorem Call.piece?_ofPiece (p : Piece) : (ofPiece p).piece? = some p := by
  cases p <;> rfl

/-- The call marks the expression as one that calls an aggregate function. -/
def Call.isAggregate (c : Call) : Bool := c.piece?.isNone

/-- The pieces that calls ask for. -/
def asked (calls : List Call) : List Piece := calls.filterMap Call.piece?

/-- The builder has what the calls ask for: the canonical form of the pieces, and what they read. -/
structure Makes (b : ExprBuilder) (calls : List Call) : Prop where
  pieces : b.pieces = canonicalPieces (asked calls)
  reads : ∀ a, a ∈ b.reads ↔ ∃ p ∈ asked calls, a ∈ p.reads
  aggregate : b.aggregate = calls.any Call.isAggregate

theorem asked_snoc : asked (calls ++ [c]) = asked calls ++ c.piece?.toList := by
  rw [asked, List.filterMap_append, List.filterMap_cons]
  cases c.piece? <;> rfl

/-- A call that asks for a piece: its pieces are put at the end, and the set grows by what it reads. -/
theorem Makes.snoc (h : b.Makes calls) (hc : c.piece? = some p)
    (hpieces : b'.pieces = canonicalPieces (asked calls ++ [p]))
    (hreads : ∀ a, a ∈ b'.reads ↔ a ∈ b.reads ∨ a ∈ p.reads)
    (haggregate : b'.aggregate = b.aggregate) : b'.Makes (calls ++ [c]) := by
  have hasked : asked (calls ++ [c]) = asked calls ++ [p] := by
    rw [asked_snoc, hc]
    rfl
  refine ⟨hasked ▸ hpieces, fun a => ?_, ?_⟩
  · rw [hreads, h.reads, hasked]
    simp [or_and_right, exists_or]
  · rw [haggregate, h.aggregate, List.any_append]
    simp [Call.isAggregate, hc]

theorem Makes.push (h : b.Makes calls) (hc : c.piece? = some p) (hp : ¬ p.IsText)
    (hreads : ∀ a, a ∈ reads ↔ a ∈ b.reads ∨ a ∈ p.reads) :
    (b.push p reads).Makes (calls ++ [c]) := by
  refine h.snoc hc ?_ hreads rfl
  rw [canonicalPieces_snoc hp, ← h.pieces]
  rfl

/-- One call. -/
theorem Makes.call (h : b.Makes calls) (c : Call) : (b.call c).Makes (calls ++ [c]) := by
  cases c with
  | text t =>
    refine h.snoc rfl ?_ (fun a => (or_iff_left (AliasSet.not_mem_empty a)).symm) rfl
    rw [canonicalPieces_snoc_text, ← h.pieces]
    rfl
  | column | output | discriminator =>
    refine h.push rfl ?_ fun a => ?_
    · rintro ⟨_, ⟨⟩⟩
    · rw [AliasSet.mem_insert, Piece.reads, AliasSet.mem_ofList, List.mem_singleton, or_comm]
  | placeholder =>
    refine h.push rfl ?_ fun a => (or_iff_left (AliasSet.not_mem_empty a)).symm
    rintro ⟨_, ⟨⟩⟩
  | subquery q =>
    refine h.push rfl ?_ fun a => AliasSet.mem_union
    rintro ⟨_, ⟨⟩⟩
  | aggregate =>
    have hasked : asked (calls ++ [.aggregate]) = asked calls := by
      rw [asked_snoc]
      exact List.append_nil _
    refine ⟨hasked ▸ h.pieces, hasked ▸ h.reads, ?_⟩
    rw [List.any_append]
    exact (Bool.or_true _).symm

theorem run_makes (calls : List Call) : (run calls).Makes calls := by
  induction calls using List.reverseRecOn with
  | nil => exact ⟨rfl, fun a => by simp [run, asked], rfl⟩
  | append_singleton calls c ih =>
    rw [run, List.foldl_append]
    exact ih.call c

/-- The expression that calls make consists of the pieces that they ask for. -/
theorem build_run (calls : List Call) :
    (run calls).build = .ofPieces (asked calls) (calls.any Call.isAggregate) := by
  rw [build, (run_makes calls).pieces, (run_makes calls).aggregate]
  rfl

/-- The set that has grown with an expression is what the expression reads. -/
theorem reads_run (calls : List Call) : (run calls).reads = (run calls).build.reads := by
  refine AliasSet.ext fun a => ?_
  rw [(run_makes calls).reads, build_run, Expr.reads_eq, ← Piece.mem_readsAll]
  exact mem_readsAll_canonicalPieces.symm

/-- The calls that ask for pieces, one after the other, and mark the expression if need be. -/
def callsOf (ps : List Piece) (aggregate : Bool) : List Call :=
  ps.map Call.ofPiece ++ if aggregate then [.aggregate] else []

theorem asked_callsOf (ps : List Piece) (aggregate : Bool) : asked (callsOf ps aggregate) = ps := by
  have hpieces : (ps.map Call.ofPiece).filterMap Call.piece? = ps := by
    simp [List.filterMap_map, Call.piece?_ofPiece]
  rw [asked, callsOf, List.filterMap_append, hpieces]
  cases aggregate <;> exact List.append_nil ps

theorem any_callsOf (ps : List Piece) (aggregate : Bool) :
    (callsOf ps aggregate).any Call.isAggregate = aggregate := by
  have hpieces : (ps.map Call.ofPiece).any Call.isAggregate = false := by
    simp [Call.isAggregate, Call.piece?_ofPiece]
  rw [callsOf, List.any_append, hpieces]
  cases aggregate <;> rfl

/-- Every expression in canonical form is made by calls. -/
theorem exists_run (h : e.pieces = canonicalPieces ps) :
    ∃ calls, run calls = ⟨e.pieces, e.reads, e.aggregate⟩ := by
  refine ⟨callsOf ps e.aggregate, ?_⟩
  have hbuild : (run (callsOf ps e.aggregate)).build = e := by
    rw [build_run, asked_callsOf, any_callsOf, Expr.ofPieces, ← h]
    cases e
    rfl
  conv_rhs => rw [← hbuild, ← reads_run]
  rfl

end ExprBuilder

/-! ## Graphs -/

/-- The graph after a change. -/
def JoinGraph.step (g : JoinGraph) : GraphBuilder.Step → JoinGraph
  | .add n => g.add [n]
  | .attach id condition => g.attach id condition
  | .indexBy id column => g.indexBy id column

theorem JoinGraph.nodes_update {g : JoinGraph} {id : AliasId} {f : JoinNode → JoinNode} :
    (g.update id f).nodes = update.updateFirst id f g.nodes := by
  rw [update, nodes, nodes, update.updateFirst]
  split <;> rfl

namespace GraphBuilder

variable {b : GraphBuilder} {g : JoinGraph}

/-- The builder has the nodes of the graph, each with what it is joined on. -/
def Stores (b : GraphBuilder) (g : JoinGraph) : Prop :=
  b.nodes = g.nodes.map StoredNode.refreshed

theorem updateFirst_refreshed {id : AliasId} {f : JoinNode → JoinNode}
    {F : StoredNode → StoredNode} (hf : ∀ n, F (.refreshed n) = .refreshed (f n))
    (ns : List JoinNode) : updateFirst id F (ns.map StoredNode.refreshed) =
      (JoinGraph.update.updateFirst id f ns).map StoredNode.refreshed := by
  induction ns with
  | nil => rfl
  | cons n ns ih =>
    rw [List.map_cons, updateFirst, JoinGraph.update.updateFirst]
    by_cases hid : n.id = id
    · have hid' : (StoredNode.refreshed n).node.id = id := hid
      rw [if_pos hid, if_pos hid', List.map_cons, hf]
    · have hid' : (StoredNode.refreshed n).node.id ≠ id := hid
      rw [if_neg hid, if_neg hid', List.map_cons, ih]

/-- One change: a node that is changed otherwise than by a condition is joined on what it was. -/
theorem Stores.step (h : b.Stores g) (change : Step) : (b.step change).Stores (g.step change) := by
  cases change with
  | add n =>
    show b.nodes ++ [.refreshed n] = (g.nodes ++ [n]).map StoredNode.refreshed
    rw [h, List.map_append]
    rfl
  | attach id condition =>
    show updateFirst id _ b.nodes = _
    rw [h, JoinGraph.step, JoinGraph.attach, JoinGraph.nodes_update]
    exact updateFirst_refreshed (fun n => rfl) g.nodes
  | indexBy id column =>
    show updateFirst id _ b.nodes = _
    rw [h, JoinGraph.step, JoinGraph.indexBy, JoinGraph.nodes_update]
    exact updateFirst_refreshed (fun n => by cases n; rfl) g.nodes

/-- After any changes, the builder has with every node what the node is joined on. -/
theorem run_ofRoot (id : AliasId) (userAlias : String) (c : Component) (indexBy : Option String)
    (steps : List Step) : (run (.ofRoot id userAlias c indexBy) steps).Stores
      (steps.foldl JoinGraph.step ⟨.ofRoot id userAlias c indexBy, []⟩) := by
  induction steps using List.reverseRecOn with
  | nil => rfl
  | append_singleton steps change ih =>
    rw [run, List.foldl_append, List.foldl_append]
    exact ih.step change

end GraphBuilder
end ObjectQuery
