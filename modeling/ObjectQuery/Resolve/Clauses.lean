import ObjectQuery.Plan.Reads
import ObjectQuery.Resolve.Expr
import ObjectQuery.Resolve.Item

/-! # Resolving clauses

The select list is resolved first. `WHERE` may then name columns only through an alias, while
`GROUP BY`, `HAVING` and `ORDER BY` may also name a select expression or a column of the root.

* `resolveSelectItem`, `resolveSelect`: the select list;
* `resolveClauses`: all clauses. -/

namespace ObjectQuery

/-- All columns of all components that are no bridges. -/
def allFields (graph : JoinGraph) : List SelectItem :=
  (graph.nodes.filter (·.role != .bridge)).flatMap fun n =>
    n.component.columns.map fun c => .ofColumn n.id c false

/-- The text before a final `.*`. -/
def starAlias? (t : Text) : Option Text :=
  match t.reverse with
  | '*' :: '.' :: rest => some rest.reverse
  | _ => none

/-- The select items that a text without a name of its own stands for: all columns of an alias, or
one column. An answer of `none` leaves the text to be an expression. -/
def resolveFields (graph : JoinGraph) (t : Text) : Resolve (Option (List SelectItem)) := do
  match starAlias? t with
  | some name =>
    let userAlias := String.ofList name
    let id ← Resolve.lookup .select userAlias
    let component ← Resolve.componentOf .select userAlias id
    return some (component.columns.map fun c => .ofColumn id c false)
  | none =>
    match t.path? with
    | some [userAlias, field] =>
      let id ← Resolve.lookup .select userAlias
      let component ← Resolve.componentOf .select userAlias id
      match component.column? field with
      | some column => return some [.ofColumn id column false]
      | none => throw (.unknownField .select userAlias field)
    | some [field] =>
      match graph.root.component.column? field with
      | some column => return some [.ofColumn graph.root.id column false]
      | none => return none
    | _ => return none

/-- The select items of one item of a select list; `ordinal` is the number of the next select
expression. An expression belongs to the first alias of the graph that it reads, or else to the
root. -/
def resolveSelectItem (env : Surroundings) (subquery : ResolveSubquery) (graph : JoinGraph)
    (ordinal : Nat) (item : Item) : Resolve (List SelectItem) := do
  let scanner := env.config.scanner
  let (text, name) ← Resolve.scanning .select (splitAlias scanner item.text)
  let fields ← if name.isSome then pure none else resolveFields graph text
  match fields with
  | some fields => return fields
  | none =>
    let expr ← resolveExpr scanner subquery .select {} none item.param text
    let owner := (expr.reads.toList.find? graph.contains).getD graph.root.id
    return [.expression owner ordinal expr name]

/-- The number of expressions in a select list. -/
def expressionCount (items : List SelectItem) : Nat := items.countP (·.field?.isNone)

/-- The select items of the items of a select list. -/
def resolveSelectItems (env : Surroundings) (subquery : ResolveSubquery) (graph : JoinGraph) :
    Nat → List Item → Resolve (List SelectItem)
  | _, [] => return []
  | ordinal, item :: items => do
    let first ← resolveSelectItem env subquery graph ordinal item
    let rest ← resolveSelectItems env subquery graph (ordinal + expressionCount first) items
    return first ++ rest

/-- The select list of a query; without a `SELECT` clause it is every column. -/
def resolveSelect (env : Surroundings) (subquery : ResolveSubquery) (graph : JoinGraph)
    (param : Nat) : Option Segment → Resolve (List SelectItem)
  | none => return allFields graph
  | some s => do
    let items ← ExceptT.mk (pure (segmentItems env.config.scanner .select param s))
    resolveSelectItems env subquery graph 0 items

/-- The order term of one item of an `ORDER BY` clause. -/
def resolveOrderItem (env : Surroundings) (subquery : ResolveSubquery) (bare : BareWords)
    (implicit : Bool) (item : Item) : Resolve OrderTerm := do
  let scanner := env.config.scanner
  let (text, direction) ← Resolve.scanning .orderBy (splitDirection scanner item.text)
  let expr ← resolveExpr scanner subquery .orderBy bare none item.param text
  return ⟨expr, direction, implicit⟩

/-- The expression of a clause that is one condition. -/
def resolveCondition (env : Surroundings) (subquery : ResolveSubquery) (clause : Clause)
    (bare : BareWords) (param : Nat) : Option Segment → Resolve (Option Expr)
  | none => return none
  | some s =>
    some <$> resolveExpr env.config.scanner subquery clause bare none (param + s.firstParam) s.text

/-- What is made of each item of a clause that is a list. -/
def resolveList (env : Surroundings) (clause : Clause) (param : Nat) (f : Item → Resolve α) :
    Option Segment → Resolve (List α)
  | none => return []
  | some s => do
    let items ← ExceptT.mk (pure (segmentItems env.config.scanner clause param s))
    items.mapM f

/-- Resolves the clauses of a query over its graph; `param` is the ordinal of its first
placeholder. -/
def resolveClauses (env : Surroundings) (subquery : ResolveSubquery) (graph : JoinGraph)
    (param : Nat) (q : ClauseTexts) : Resolve ClauseSet := do
  let scanner := env.config.scanner
  let select ← resolveSelect env subquery graph param q.select
  let selected : ClauseSet := ⟨q.distinct, select, none, [], none, [], q.limit, q.offset⟩
  let bare : BareWords := ⟨selected.named?, some graph.root.id⟩
  let filter ← resolveCondition env subquery .where {} param q.filter
  let groupBy ← resolveList env .groupBy param
    (fun item => resolveExpr scanner subquery .groupBy bare none item.param item.text) q.groupBy
  let having ← resolveCondition env subquery .having bare param q.having
  let orderBy ← resolveList env .orderBy param
    (resolveOrderItem env subquery bare false) q.orderBy
  return { selected with filter, groupBy, having, orderBy }

end ObjectQuery
