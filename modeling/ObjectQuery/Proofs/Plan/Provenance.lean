import ObjectQuery.Plan.Query
import ObjectQuery.Proofs.Query.Clauses
import ObjectQuery.Proofs.Text.Fragments
import ObjectQuery.Resolve.Selection
import ObjectQuery.Resolve.State

/-! # Where the pieces of a plan come from

A relation between the text of a query and the plan made of it. Every expression of the plan is
made, fragment by fragment, from a part of the text: a placeholder from the `?` at a known place, a
column from a word, a subquery from the text between parentheses. The relation for subqueries is a
parameter of all others, and `SubqueryFrom` ties the knot along the levels of nesting.

* `FragmentFrom`, `ExprFrom`: expressions;
* `ListFrom`, `GraphFrom`, `QueryFrom`: clauses, joins and queries;
* `SubqueryFrom`, `PlanFrom`: nested queries and whole plans. -/

namespace ObjectQuery

/-- The provider gives the component under some name. -/
def Surroundings.Describes (env : Surroundings) (c : Component) : Prop :=
  ∃ name, env.provider name = .ok c

/-- The names of columns that a component mentions. -/
def Component.columnNames (c : Component) : List String :=
  c.columns.map (·.name) ++ c.relations.flatMap (fun r => [r.localColumn, r.foreignColumn]) ++
    c.inheritance.toList.map (·.column)

/-- The name of a column stands in the schema. -/
def Surroundings.HasColumn (env : Surroundings) (name : String) : Prop :=
  ∃ c, env.Describes c ∧ name ∈ c.columnNames

theorem Surroundings.Describes.hasColumn {env : Surroundings} {c : Component} {column : Column}
    (h : env.Describes c) (hc : column ∈ c.columns) : env.HasColumn column.name := by
  refine ⟨c, h, ?_⟩
  simp only [Component.columnNames, List.mem_append, List.mem_map]
  exact .inl (.inl ⟨column, hc, rfl⟩)

theorem hasColumn_of_mem_keyNames {env : Surroundings} {c : Component} {key : String}
    (h : env.Describes c) (hk : key ∈ c.keyNames) : env.HasColumn key := by
  obtain ⟨column, hc, rfl⟩ := List.mem_map.1 hk
  exact h.hasColumn (List.mem_filter.1 hc).1

/-- How a subquery comes from the text `inner`, which stands in a text at the given position after
the given number of placeholders. -/
abbrev Origin := (text : Text) → (param off : Nat) → (inner : Text) → Subquery → Prop

/-- The segment counted from the start of the text that its clause is part of. -/
def Segment.after (base : Nat) (g : Segment) : Segment := ⟨g.text, base + g.firstParam⟩

/-! ## Expressions -/

/-- Pieces that the schema asks for: tame texts, columns and tests, and groups of them. -/
inductive Generated (env : Surroundings) : List Piece → Prop
  | nil : Generated env []
  | text {t : Text} {ps : List Piece} (ht : Tame t) (h : Generated env ps) :
    Generated env (.text t :: ps)
  | column {id : AliasId} {name : String} {ps : List Piece} (hc : env.HasColumn name)
    (h : Generated env ps) : Generated env (.column id name :: ps)
  | test {id : AliasId} {c : Component} {d : Discriminator} {ps : List Piece}
    (hc : env.Describes c) (hd : c.inheritance = some d) (h : Generated env ps) :
    Generated env (.discriminator id d :: ps)
  | group {ps qs : List Piece} (hp : Generated env ps) (hq : Generated env qs) :
    Generated env (.text ['('] :: ps ++ .text [')'] :: qs)

/-- The expression consists of pieces that the schema asks for. -/
def Expr.Generated (env : Surroundings) (e : Expr) : Prop :=
  ∃ ps, ObjectQuery.Generated env ps ∧ e.pieces = canonicalPieces ps

section
variable (env : Surroundings) (R : Origin) (T : Text)

/-- What the pieces of a fragment come from; the fragment stands in the text `T` at the position
`off`, after `param` placeholders. -/
inductive FragmentFrom (param off : Nat) : Fragment → List Piece → Prop
  | verbatim {t : Text} : FragmentFrom param off (.verbatim t) [.text t]
  | placeholder (h : (env.config.scanner.questions T)[param]? = some off) :
    FragmentFrom param off .placeholder [.placeholder param]
  | kept {w : Text} {called : Bool} : FragmentFrom param off (.word w called) [.text w]
  | column {w : Text} {called : Bool} {id : AliasId} {name : String} (h : env.HasColumn name) :
    FragmentFrom param off (.word w called) [.column id name]
  | output {w : Text} {called : Bool} {owner : AliasId} {ordinal : Nat} :
    FragmentFrom param off (.word w called) [.output owner ordinal]
  | subquery {inner : Text} {q : Subquery} (h : R T param (off + 1) inner q) :
    FragmentFrom param off (.subquery inner) [.text ['('], .subquery q, .text [')']]

/-- What the pieces of fragments come from that follow one another. -/
inductive FragmentsFrom : (param off : Nat) → List Fragment → List Piece → Prop
  | nil {param off : Nat} : FragmentsFrom param off [] []
  | cons {param off : Nat} {f : Fragment} {fs : List Fragment} {ps qs : List Piece}
    (hf : FragmentFrom env R T param off f ps)
    (h : FragmentsFrom (param + f.placeholders env.config.scanner) (off + f.source.length) fs qs) :
    FragmentsFrom param off (f :: fs) (ps ++ qs)

/-- The expression comes from a part of the text. -/
def ExprFrom (g : Segment) (e : Expr) : Prop :=
  ∃ off ps, env.config.scanner.Stands T off g.firstParam g.text ∧
    FragmentsFrom env R T g.firstParam off (Fragment.ofText env.config.scanner g.text) ps ∧
    e.pieces = canonicalPieces ps

/-! ## Clauses and joins -/

/-- The expressions come, one after the other, from parts of the text that hold the placeholders
with the given ordinals. -/
def PartsFrom (ordinals : List Nat) (es : List Expr) : Prop :=
  ∃ parts : List Segment, List.Forall₂ (ExprFrom env R T) parts es ∧
    parts.flatMap (·.ordinals env.config.scanner) = ordinals

/-- The ordinals of the placeholders of a clause, counted from the start of the text that the query
is part of. -/
abbrev clauseOrdinals (s : Scanner) (param : Nat) (g? : Option Segment) : List Nat :=
  g?.toList.flatMap fun g => (g.after param).ordinals s

/-- The expressions come from parts of a clause that hold all placeholders of the clause. -/
def ListFrom (base : Nat) (clause : Option Segment) (es : List Expr) : Prop :=
  PartsFrom env R T (clauseOrdinals env.config.scanner base clause) es

/-- The condition of a join comes from the condition written at it. -/
def ConditionFrom (base : Nat) (written : Condition) (c : JoinCondition) : Prop :=
  c.kind = written.kind ∧ ExprFrom env R T (written.segment.after base) c.expr

/-- What the schema contributes to a node is generated. -/
structure JoinNode.Derived (n : JoinNode) : Prop where
  described : env.Describes n.component
  structural : ∀ e ∈ n.structural, e.Generated env
  extra : ∀ e ∈ n.extra, e.Generated env

/-- The conditions of the joins, in the order of the nodes. -/
def JoinGraph.conditions (g : JoinGraph) : List JoinCondition := g.nodes.filterMap (·.condition)

/-- The graph comes from a `FROM` clause: the conditions are those written at the joins, the root has
none, every node is an occurrence of its own, and no node is joined on one that comes after it. -/
structure GraphFrom (base : Nat) (f : FromList) (g : JoinGraph) : Prop where
  conditions : List.Forall₂ (ConditionFrom env R T base) (f.joins.filterMap (·.condition))
    g.conditions
  root : g.root.condition = none
  tame : f.TameIndexes
  derived : ∀ n ∈ g.nodes, n.Derived env
  nodup : g.aliases.Nodup
  declared : g.nodes.Pairwise fun m n => n.id ∉ m.dependsOn

end

/-- The expression of a select item, if it is one. -/
def SelectItem.expr? : SelectItem → Option Expr
  | field _ => none
  | expression _ _ e _ => some e

/-- The expressions of a select list. -/
def ClauseSet.selectExprs (c : ClauseSet) : List Expr := c.select.filterMap (·.expr?)

/-- The expressions that a query orders by itself. -/
def ClauseSet.explicitOrder (c : ClauseSet) : List Expr :=
  (c.orderBy.filter (!·.implicit)).map (·.expr)

section
variable (env : Surroundings) (R : Origin) (T : Text)

/-- The clauses come from the texts of clauses of a query, the first placeholder of which has the
ordinal `base`. -/
structure ClausesFrom (base : Nat) (q : ClauseTexts) (c : ClauseSet) : Prop where
  select : ListFrom env R T base q.select c.selectExprs
  fields : ∀ f ∈ c.select.filterMap (·.field?), env.HasColumn f.column
  filter : ListFrom env R T base q.filter c.filter.toList
  groupBy : ListFrom env R T base q.groupBy c.groupBy
  having : ListFrom env R T base q.having c.having.toList
  orderBy : ListFrom env R T base q.orderBy c.explicitOrder
  directions : ∀ t ∈ c.orderBy, ∀ d ∈ t.direction, Tame d.toList

/-- The joins and clauses come from a query. -/
structure QueryFrom (base : Nat) (q : Query) (g : JoinGraph) (c : ClauseSet) : Prop
    extends ClausesFrom env R T base q.toClauseTexts c where
  graph : GraphFrom env R T base q.source g

end

/-! ## Queries -/

/-- The subquery comes from the text, with at most `levels` levels of nesting. -/
def SubqueryFrom (env : Surroundings) : (levels : Nat) → Origin
  | 0 => fun _ _ _ _ _ => False
  | levels + 1 => fun T param off inner s =>
    env.config.scanner.Stands T off param inner ∧ (∀ t ∈ s.clauses.orderBy, t.implicit = false) ∧
      s.emitted = s.graph.aliases ∧ ∃ q, Query.parse env.config.scanner inner = .ok q ∧
        QueryFrom env (SubqueryFrom env levels) T param q s.graph s.clauses

/-- How the subqueries of a plan come from its text. -/
abbrev Surroundings.origin (env : Surroundings) : Origin :=
  SubqueryFrom env env.config.maxSubqueryDepth

/-- The names of the text consist of name characters. -/
def IsName (name : String) : Prop := ∀ c ∈ name.toList, isNameChar c = true

instance (name : String) : Decidable (IsName name) :=
  List.decidableBAll (fun c => isNameChar c = true) name.toList

/-- The result column is named after the occurrence that the column belongs to. -/
def SelectedField.Named (names : AliasNames) (f : SelectedField) : Prop :=
  ∃ earlier, f.output = fieldOutput (names.get f.owner ++ "__" ++ f.column) earlier

/-- The plan comes from the text of a query. Orderings that the schema adds come from texts without
placeholders. -/
structure PlanFrom (env : Surroundings) (T : Text) (p : QueryPlan) : Prop where
  query : ∃ q, Query.parse env.config.scanner T = .ok q ∧
    QueryFrom env env.origin T 0 q p.graph p.clauses
  implicit : ∀ t ∈ p.clauses.orderBy, t.implicit = true →
    ∃ ordering g, env.config.scanner.count ordering = 0 ∧ ExprFrom env env.origin ordering g t.expr
  placeholders : p.placeholders = env.config.scanner.count T
  emitted : env.config.pruneJoins = false → p.emitted = p.graph.aliases
  aliases : ∀ name ∈ p.aliases, IsName name
  shadow : ∀ names ∈ p.shadowAliases, ∀ name ∈ names, IsName name
  outputs : ∀ f ∈ p.clauses.select.filterMap (·.field?), f.Named p.aliases

end ObjectQuery
