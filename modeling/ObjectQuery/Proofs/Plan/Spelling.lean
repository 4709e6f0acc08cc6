import ObjectQuery.Proofs.Plan.Scope

/-! # How the columns of a plan are spelled

A column of a plan is written as the name of an alias and a string that the database is to know as a
column of its table. `SpelledQuery` says that all columns of a query, and of the queries inside it,
belong to visible aliases and that each string stands for a column of the component of its alias.
Which strings do is a parameter (`Spelling`), and so is what is known of the components of the
aliases.

* `NamesColumn`: one column;
* `Expr.Spelled`, `SpelledQuery`: all columns of an expression and of a query. -/

namespace ObjectQuery

/-- Which strings stand for columns of a component. -/
abbrev Spelling := Component → String → Prop

variable {known known' : AliasId → Option Component} {ok : Spelling}
  {visible visible' outer outer' : Set AliasId} {g : JoinGraph} {c : ClauseSet} {e : Expr}
  {ps : List Piece}

/-- The column that a piece names itself, with its alias. -/
def Piece.column? : Piece → Option (AliasId × String)
  | .column id name => some (id, name)
  | .discriminator id test => some (id, test.column)
  | .text _ | .output .. | .placeholder _ | .subquery _ => none

/-- The alias is visible, and the string stands for a column of its component. -/
structure NamesColumn (known : AliasId → Option Component) (ok : Spelling)
    (visible : Set AliasId) (id : AliasId) (column : String) : Prop where
  visible : id ∈ visible
  spelled : ∃ component, known id = some component ∧ ok component column

/-- All columns of a query within the aliases `outer`, and of the queries inside it, are spelled
well: those of its select list and its expressions, and that of the test for the rows of its
root. -/
inductive SpelledQuery (known : AliasId → Option Component) (ok : Spelling) :
    (outer : Set AliasId) → JoinGraph → ClauseSet → Prop
  | intro {outer : Set AliasId} {g : JoinGraph} {c : ClauseSet}
    (components : ∀ n ∈ g.nodes, known n.id = some n.component)
    (fields : ∀ f, .field f ∈ c.select →
      NamesColumn known ok ({a | a ∈ g.aliases} ∪ outer) f.owner f.column)
    (columns : ∀ e ∈ queryExprs g c, ∀ x ∈ e.pieces, ∀ id column,
      x.column? = some (id, column) → NamesColumn known ok ({a | a ∈ g.aliases} ∪ outer) id column)
    (root : ∀ test ∈ g.root.component.inheritance, ok g.root.component test.column)
    (nested : ∀ e ∈ queryExprs g c, ∀ q, .subquery q ∈ e.pieces →
      SpelledQuery known ok ({a | a ∈ g.aliases} ∪ outer) q.graph q.clauses) :
    SpelledQuery known ok outer g c

/-- The columns of a piece are spelled well, those of a query inside it included. -/
def Piece.Spelled (known : AliasId → Option Component) (ok : Spelling) (visible : Set AliasId) :
    Piece → Prop
  | .column id name => NamesColumn known ok visible id name
  | .discriminator id test => NamesColumn known ok visible id test.column
  | .subquery q => SpelledQuery known ok visible q.graph q.clauses
  | .text _ | .output .. | .placeholder _ => True

/-- The columns of an expression are spelled well. -/
def Expr.Spelled (known : AliasId → Option Component) (ok : Spelling) (visible : Set AliasId)
    (e : Expr) : Prop :=
  ∀ x ∈ e.pieces, x.Spelled known ok visible

/-! ## More that is known, more that is visible -/

theorem NamesColumn.mono {id : AliasId} {column : String}
    (hk : ∀ id component, known id = some component → known' id = some component)
    (hv : visible ⊆ visible') (h : NamesColumn known ok visible id column) :
    NamesColumn known' ok visible' id column := by
  obtain ⟨hid, component, hc, hok⟩ := h
  exact ⟨hv hid, component, hk _ _ hc, hok⟩

theorem SpelledQuery.mono
    (hk : ∀ id component, known id = some component → known' id = some component)
    (hv : outer ⊆ outer') (h : SpelledQuery known ok outer g c) :
    SpelledQuery known' ok outer' g c := by
  induction h generalizing outer' with
  | @intro outer g c components fields columns root nested ih =>
    have hv := Set.union_subset_union_right {a | a ∈ g.aliases} hv
    refine .intro (fun n hn => hk _ _ (components n hn)) (fun f hf => (fields f hf).mono hk hv)
      (fun e he x hx id column hcol => ?_) root fun e he q hq => ih e he q hq hv
    exact (columns e he x hx id column hcol).mono hk hv

/-- Names that are spelled well by one spelling are so by any that allows more. -/
theorem SpelledQuery.imp {ok' : Spelling} (hok : ∀ component name, ok component name →
    ok' component name) (h : SpelledQuery known ok outer g c) : SpelledQuery known ok' outer g c := by
  have himp {visible : Set AliasId} {id : AliasId} {column : String}
      (h : NamesColumn known ok visible id column) : NamesColumn known ok' visible id column := by
    obtain ⟨hid, component, hc, h⟩ := h
    exact ⟨hid, component, hc, hok _ _ h⟩
  induction h with
  | intro components fields columns root nested ih =>
    exact .intro components (fun f hf => himp (fields f hf))
      (fun e he x hx id column hcol => himp (columns e he x hx id column hcol))
      (fun test ht => hok _ _ (root test ht)) ih

theorem Piece.Spelled.mono {x : Piece}
    (hk : ∀ id component, known id = some component → known' id = some component)
    (hv : visible ⊆ visible') (h : x.Spelled known ok visible) : x.Spelled known' ok visible' := by
  cases x with
  | column | discriminator => exact NamesColumn.mono hk hv h
  | subquery q => exact SpelledQuery.mono hk hv h
  | text | output | placeholder => trivial

theorem Expr.Spelled.mono
    (hk : ∀ id component, known id = some component → known' id = some component)
    (hv : visible ⊆ visible') (h : e.Spelled known ok visible) : e.Spelled known' ok visible' :=
  fun x hx => (h x hx).mono hk hv

/-! ## Expressions and queries -/

theorem Expr.Spelled.ofPieces {aggregate : Bool} (h : ∀ x ∈ ps, x.Spelled known ok visible) :
    (Expr.ofPieces ps aggregate).Spelled known ok visible := by
  intro x hx
  rcases mem_canonicalPieces hx with hx | ⟨t, rfl⟩
  · exact h x hx
  · trivial

/-- A query is spelled well when its expressions are. -/
theorem SpelledQuery.of_exprs (components : ∀ n ∈ g.nodes, known n.id = some n.component)
    (fields : ∀ f, .field f ∈ c.select →
      NamesColumn known ok ({a | a ∈ g.aliases} ∪ outer) f.owner f.column)
    (exprs : ∀ e ∈ queryExprs g c, e.Spelled known ok ({a | a ∈ g.aliases} ∪ outer))
    (root : ∀ test ∈ g.root.component.inheritance, ok g.root.component test.column) :
    SpelledQuery known ok outer g c := by
  refine .intro components fields (fun e he x hx id column hcol => ?_) root
    fun e he q hq => exprs e he _ hq
  have hx := exprs e he x hx
  cases x with
  | column | discriminator =>
    cases hcol
    exact hx
  | text | output | placeholder | subquery => cases hcol

end ObjectQuery
