import ObjectQuery.Plan.Reads

/-! # Expressions and graphs made step by step

An expression is made call by call, and the set of what it reads grows with it. A graph is made node
by node, and every node keeps the set of what it is joined on, which is found anew when the node is
added and when it is given a condition.

* `ExprBuilder.call`, `ExprBuilder.run`: expressions;
* `GraphBuilder.step`, `GraphBuilder.run`: graphs. -/

namespace ObjectQuery

/-! ## Expressions -/

/-- An expression that is being made. -/
structure ExprBuilder where
  pieces : List Piece := []
  /-- The aliases that the pieces read. -/
  reads : AliasSet := ∅
  aggregate : Bool := false

namespace ExprBuilder

/-- What a builder can be asked for. -/
inductive Call
  | text (t : Text)
  | column (id : AliasId) (column : String)
  | output (owner : AliasId) (ordinal : Nat)
  | placeholder (ordinal : Nat)
  | subquery (query : Subquery)
  | discriminator (id : AliasId) (test : Discriminator)
  /-- The expression calls an aggregate function. -/
  | aggregate

/-- Pieces with a text after them. It becomes part of the text that stands last; without one, an
empty text is left out. -/
def appendText (t : Text) : List Piece → List Piece
  | [] => if t.isEmpty then [] else [.text t]
  | [.text u] => [.text (u ++ t)]
  | p :: ps => p :: appendText t ps

/-- The builder with one more piece, which is no text and reads the given aliases. -/
def push (b : ExprBuilder) (p : Piece) (reads : AliasSet) : ExprBuilder :=
  { b with pieces := b.pieces ++ [p], reads := reads }

/-- The builder after a call. -/
def call (b : ExprBuilder) : Call → ExprBuilder
  | .text t => { b with pieces := appendText t b.pieces }
  | .column id column => b.push (.column id column) (b.reads.insert id)
  | .output owner ordinal => b.push (.output owner ordinal) (b.reads.insert owner)
  | .placeholder ordinal => b.push (.placeholder ordinal) b.reads
  | .subquery q => b.push (.subquery q) (b.reads ∪ q.outerReads)
  | .discriminator id test => b.push (.discriminator id test) (b.reads.insert id)
  | .aggregate => { b with aggregate := true }

/-- The builder after calls, one after the other. -/
def run (calls : List Call) : ExprBuilder := calls.foldl call {}

/-- The expression that was made. -/
def build (b : ExprBuilder) : Expr := ⟨b.pieces, b.aggregate⟩

end ExprBuilder

/-! ## Graphs -/

/-- A node with what it was joined on when that was last found. -/
structure StoredNode where
  node : JoinNode
  dependsOn : AliasSet

/-- The node with what it is joined on now. -/
def StoredNode.refreshed (n : JoinNode) : StoredNode := ⟨n, n.dependsOn⟩

/-- A graph that is being made; the root comes first. -/
structure GraphBuilder where
  nodes : List StoredNode

namespace GraphBuilder

/-- A change of a graph. -/
inductive Step
  | add (n : JoinNode)
  | attach (id : AliasId) (condition : JoinCondition)
  | indexBy (id : AliasId) (column : String)

/-- The nodes with the first one of the given alias changed. -/
def updateFirst (id : AliasId) (f : StoredNode → StoredNode) : List StoredNode → List StoredNode
  | [] => []
  | n :: ns => if n.node.id = id then f n :: ns else n :: updateFirst id f ns

/-- The graph of a root that is joined on nothing. -/
def ofRoot (root : JoinNode) : GraphBuilder := ⟨[⟨root, ∅⟩]⟩

/-- The graph after a change. A key for the records of a node leaves alone what the node is joined
on. -/
def step (g : GraphBuilder) : Step → GraphBuilder
  | .add n => ⟨g.nodes ++ [.refreshed n]⟩
  | .attach id condition =>
    ⟨updateFirst id (fun n => .refreshed { n.node with condition := some condition }) g.nodes⟩
  | .indexBy id column =>
    ⟨updateFirst id (fun n => { n with node.indexBy := some column }) g.nodes⟩

/-- The graph after changes, one after the other. -/
def run (root : JoinNode) (steps : List Step) : GraphBuilder := steps.foldl step (ofRoot root)

end GraphBuilder

end ObjectQuery
