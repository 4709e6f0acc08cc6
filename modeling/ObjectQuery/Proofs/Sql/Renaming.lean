import ObjectQuery.Proofs.Sql.Scope

/-! # Statements under other names

A statement with its qualifiers, and the names that it introduces, replaced by others
(`Sql.Select.rename`). Lowering a query with another table of names gives the renamed statement, as
long as the aliases that result columns are named after keep their names.

* `Expr.Over.renamed`, `sqlJoins_rename`: expressions and joins;
* `Subquery.Formed.renamed`: queries inside expressions. -/

namespace ObjectQuery
namespace Sql

variable {ρ : String → String}

mutual

/-- The term with its qualifiers renamed. -/
def Term.rename (ρ : String → String) : Term → Term
  | .raw t => .raw t
  | .column qualifier column => .column (ρ qualifier) column
  | .output name => .output name
  | .param ordinal => .param ordinal
  | .equals qualifier column value => .equals (ρ qualifier) column value
  | .select s => .select (s.rename ρ)

def Term.renameAll (ρ : String → String) : List Term → List Term
  | [] => []
  | t :: ts => t.rename ρ :: Term.renameAll ρ ts

def Term.renameEach (ρ : String → String) : List (List Term) → List (List Term)
  | [] => []
  | ts :: rest => Term.renameAll ρ ts :: Term.renameEach ρ rest

def Term.renameOption (ρ : String → String) : Option (List Term) → Option (List Term)
  | none => none
  | some ts => some (Term.renameAll ρ ts)

def Item.renameAll (ρ : String → String) : List Item → List Item
  | [] => []
  | ⟨terms, name⟩ :: rest => ⟨Term.renameAll ρ terms, name⟩ :: Item.renameAll ρ rest

def Conjunct.renameAll (ρ : String → String) : List Conjunct → List Conjunct
  | [] => []
  | ⟨terms, enclosed⟩ :: rest => ⟨Term.renameAll ρ terms, enclosed⟩ :: Conjunct.renameAll ρ rest

/-- The source under another name. -/
def Source.rename (ρ : String → String) : Source → Source
  | .table table name => .table table (ρ name)
  | .derived query name spelled => .derived (query.rename ρ) (ρ name) spelled

/-- The joins under other names. -/
def Join.renameAll (ρ : String → String) : List Join → List Join
  | [] => []
  | ⟨kind, table, name, on⟩ :: rest =>
    ⟨kind, table, ρ name, Conjunct.renameAll ρ on⟩ :: Join.renameAll ρ rest

def Order.renameAll (ρ : String → String) : List Order → List Order
  | [] => []
  | ⟨terms, direction⟩ :: rest => ⟨Term.renameAll ρ terms, direction⟩ :: Order.renameAll ρ rest

/-- The statement with the names of its tables replaced wherever they stand. -/
def Select.rename (ρ : String → String) : Select → Select
  | ⟨distinct, items, source, joins, filter, groupBy, having, orderBy, limit, offset⟩ =>
    ⟨distinct, Item.renameAll ρ items, source.rename ρ, Join.renameAll ρ joins,
      Conjunct.renameAll ρ filter, Term.renameEach ρ groupBy, Term.renameOption ρ having,
      Order.renameAll ρ orderBy, limit, offset⟩

end

theorem Conjunct.renameAll_append (cs ds : List Conjunct) :
    renameAll ρ (cs ++ ds) = renameAll ρ cs ++ renameAll ρ ds := by
  induction cs with
  | nil => rfl
  | cons c cs ih =>
    obtain ⟨terms, enclosed⟩ := c
    rw [List.cons_append, renameAll, ih, renameAll, List.cons_append]

end Sql

/-! ## Lowering under other names -/

open Sql

variable {ρ : String → String} {names names' : AliasNames} {P visible : Set AliasId} {e : Expr}
  {q : Subquery} {n : JoinNode} {g : JoinGraph} {c : ClauseSet}

/-- The replacement leads from the first table of names to the second, and aliases with a property
keep their names. -/
structure Follows (ρ : String → String) (names names' : AliasNames) (P : Set AliasId) : Prop where
  get : ∀ a, ρ (names.get a) = names'.get a
  same : ∀ a ∈ P, names'.get a = names.get a

/-- Lowered with the second table of names, the expression is renamed. -/
def Expr.Renamed (ρ : String → String) (names names' : AliasNames) (e : Expr) : Prop :=
  e.terms names' = Term.renameAll ρ (e.terms names)

def Subquery.Renamed (ρ : String → String) (names names' : AliasNames) (q : Subquery) : Prop :=
  q.toSelect names' = (q.toSelect names).rename ρ

theorem Expr.renamed (hf : Follows ρ names names' P)
    (ho : ∀ o k, .output o k ∈ e.pieces → o ∈ P)
    (hq : ∀ q, .subquery q ∈ e.pieces → q.Renamed ρ names names') : e.Renamed ρ names names' := by
  obtain ⟨ps, aggregate⟩ := e
  show Piece.termsAll names' ps = Term.renameAll ρ (Piece.termsAll names ps)
  induction ps with
  | nil => rfl
  | cons x ps ih =>
    have hx : x.term names' = (x.term names).rename ρ := by
      cases x with
      | text | placeholder => rfl
      | column id column => exact congrArg (Term.column · column) (hf.get id).symm
      | discriminator id d => exact congrArg (Term.equals · d.column d.value) (hf.get id).symm
      | output o k =>
        have hsame := hf.same o (ho o k List.mem_cons_self)
        exact congrArg (fun name => Term.output (name ++ "__" ++ toString k)) hsame
      | subquery q => exact congrArg Term.select (hq q List.mem_cons_self)
    rw [Piece.termsAll, Piece.termsAll, Term.renameAll, hx, ih]
    · exact fun o k ho' => ho o k (List.mem_cons_of_mem _ ho')
    · exact fun q hq' => hq q (List.mem_cons_of_mem _ hq')

/-! ### Joins -/

theorem conjuncts_rename {ps : List (Expr × Bool)} (h : ∀ p ∈ ps, p.1.Renamed ρ names names') :
    ps.map (fun p => (⟨p.1.terms names', p.2⟩ : Conjunct)) =
      Conjunct.renameAll ρ (ps.map fun p => ⟨p.1.terms names, p.2⟩) := by
  induction ps with
  | nil => rfl
  | cons p ps ih =>
    obtain ⟨hp, hps⟩ := List.forall_mem_cons.1 h
    rw [List.map_cons, List.map_cons, Conjunct.renameAll, ih hps, hp]

theorem join_eq (n : JoinNode) : n.join names = ⟨n.kind, n.component.table, names.get n.id,
    n.predicates.map fun p => ⟨p.1.terms names, p.2⟩⟩ := by
  rw [← join_on]
  cases n
  rfl

theorem sqlJoins_rename {emitted : List AliasId} (hf : Follows ρ names names' P)
    (h : ∀ n ∈ g.nodes, ∀ e ∈ n.exprs, e.Renamed ρ names names') :
    g.sqlJoins names' emitted = Join.renameAll ρ (g.sqlJoins names emitted) := by
  rw [sqlJoins_eq, sqlJoins_eq]
  induction emitted with
  | nil => rfl
  | cons a emitted ih =>
    by_cases ha : a = g.root.id
    · have hnone (names : AliasNames) : g.sqlJoin? names a = none := if_pos ha
      rw [List.filterMap_cons_none (hnone _), List.filterMap_cons_none (hnone _), ih]
    · have hjoin (names : AliasNames) : g.sqlJoin? names a = (g.node? a).map (·.join names) :=
        if_neg ha
      rw [List.filterMap_cons, List.filterMap_cons, hjoin, hjoin]
      cases hn : g.node? a with
      | none => exact ih
      | some n =>
        have hn : n ∈ g.nodes := List.mem_of_find?_eq_some hn
        simp only [Option.map_some]
        rw [join_eq n, join_eq n, Join.renameAll, ih, hf.get,
          conjuncts_rename fun p hp => h n hn p.1 (mem_exprs_of_mem_predicates hp)]

/-! ### Clauses -/

theorem termsEach_rename {es : List Expr} (h : ∀ e ∈ es, e.Renamed ρ names names') :
    Expr.termsEach names' es = Term.renameEach ρ (Expr.termsEach names es) := by
  induction es with
  | nil => rfl
  | cons e es ih =>
    obtain ⟨he, hes⟩ := List.forall_mem_cons.1 h
    rw [Expr.termsEach, Expr.termsEach, Term.renameEach, ih hes, he]

theorem termsOption_rename {e? : Option Expr} (h : ∀ e ∈ e?, e.Renamed ρ names names') :
    Expr.termsOption names' e? = Term.renameOption ρ (Expr.termsOption names e?) := by
  cases e? with
  | none => rfl
  | some e => exact congrArg some (h e rfl)

theorem items_rename {items : List SelectItem} {hydrated : Bool} (hf : Follows ρ names names' P)
    (ho : ∀ o k e name, .expression o k e name ∈ items → o ∈ P)
    (h : ∀ e ∈ items.filterMap (·.expr?), e.Renamed ρ names names') :
    SelectItem.items names' hydrated items =
      Item.renameAll ρ (SelectItem.items names hydrated items) := by
  induction items with
  | nil => rfl
  | cons i items ih =>
    have ho' : ∀ o k e name, .expression o k e name ∈ items → o ∈ P := fun o k e name hi =>
      ho o k e name (List.mem_cons_of_mem _ hi)
    cases i with
    | field f =>
      rw [SelectItem.items, SelectItem.items, Item.renameAll, ih ho' h, ← hf.get]
      rfl
    | expression o k e name =>
      obtain ⟨he, hes⟩ := List.forall_mem_cons.1 h
      rw [SelectItem.items, SelectItem.items, Item.renameAll, ih ho' hes, he, expressionOutput,
        hf.same o (ho o k e name List.mem_cons_self)]
      rfl

theorem orders_rename {ts : List OrderTerm} (h : ∀ t ∈ ts, t.expr.Renamed ρ names names') :
    OrderTerm.orders names' ts = Order.renameAll ρ (OrderTerm.orders names ts) := by
  induction ts with
  | nil => rfl
  | cons t ts ih =>
    obtain ⟨ht, hts⟩ := List.forall_mem_cons.1 h
    obtain ⟨e, direction, implicit⟩ := t
    rw [OrderTerm.orders, OrderTerm.orders, Order.renameAll, ih hts, ht]

theorem filter_rename {e? : Option Expr} {use : TableUse} (hf : Follows ρ names names' P)
    (h : ∀ e ∈ e?, e.Renamed ρ names names') :
    (Expr.termsOption names' e?).toList.map (fun t => (⟨t, true⟩ : Conjunct)) ++
        use.rootTest names' =
      Conjunct.renameAll ρ ((Expr.termsOption names e?).toList.map (fun t => ⟨t, true⟩) ++
        use.rootTest names) := by
  have htest : use.rootTest names' = Conjunct.renameAll ρ (use.rootTest names) := by
    rw [TableUse.rootTest, TableUse.rootTest, ← hf.get]
    cases use.component.inheritance <;> rfl
  rw [Conjunct.renameAll_append, ← htest]
  cases e? with
  | none => rfl
  | some e => exact congrArg (fun t => (⟨t, true⟩ : Conjunct) :: use.rootTest names') (h e rfl)

theorem Subquery.Formed.renamed (h : q.Formed P) (hf : Follows ρ names names' P) :
    q.Renamed ρ names names' := by
  induction h with
  | @intro q introduced _ owners rows later nested ih =>
    obtain ⟨graph, clauses, emitted⟩ := q
    have hexpr : ∀ e ∈ queryExprs graph clauses, e.Renamed ρ names names' := by
      intro e he
      refine Expr.renamed hf (fun o k ho => ?_) (ih e he)
      simp only [queryExprs, List.mem_append] at he
      rcases he with (he | he) | he
      · exact absurd ho (rows e (List.mem_append_left _ he) o k)
      · obtain ⟨x, name, hi⟩ := later e he o k ho
        exact introduced o (owners o k x name hi)
      · exact absurd ho (rows e (List.mem_append_right _ he) o k)
    have hjoins : graph.sqlJoins names' emitted =
        Join.renameAll ρ (graph.sqlJoins names emitted) :=
      sqlJoins_rename hf fun n hn e he =>
        hexpr e (List.mem_append_right _ (List.mem_flatMap.2 ⟨n, hn, he⟩))
    have howners (o k x name) (hi : .expression o k x name ∈ clauses.select) : o ∈ P :=
      introduced o (owners o k x name hi)
    obtain ⟨distinct, select, filter, groupBy, having, orderBy, limit, offset⟩ := clauses
    simp only [queryExprs, ClauseSet.rowExprs, ClauseSet.laterExprs, ClauseSet.selectExprs,
      List.mem_append, Option.mem_toList, List.mem_map] at hexpr
    show Select.mk .. = Select.mk ..
    rw [items_rename hf howners fun e he => hexpr e (by tauto), hjoins,
      filter_rename hf fun e he => hexpr e (by tauto),
      termsEach_rename fun e he => hexpr e (by tauto),
      termsOption_rename fun e he => hexpr e (by tauto),
      orders_rename fun t ht => hexpr t.expr (.inl (.inr (.inr ⟨t, ht, rfl⟩))),
      TableUse.rootTable, ← hf.get]
    rfl

/-- An expression that refers to no select expression under other names. -/
theorem Expr.Over.renamed (h : e.Over visible (fun _ _ => False) P) (hf : Follows ρ names names' P) :
    e.Renamed ρ names names' :=
  Expr.renamed hf (fun _ _ ho => (h _ ho).2.elim) fun _ hq => (h _ hq).2.renamed hf

end ObjectQuery
