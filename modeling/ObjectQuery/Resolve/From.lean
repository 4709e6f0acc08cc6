import ObjectQuery.Resolve.Expr
import ObjectQuery.Resolve.Join
import ObjectQuery.Text.Name

/-! # Resolving a `FROM` clause

The root is bound first; every join then walks from an alias of the graph along its relations. A
relation passed on the way is joined under its path, and a later path that starts alike shares the
join.

* `resolveRoot`, `resolveJoin`: one element;
* `resolveFrom`: the whole clause. -/

namespace ObjectQuery

/-- The physical column that the records of an occurrence are keyed by; `text` names it, alone or
after the alias of the occurrence. -/
def resolveIndexColumn (userAlias : String) (id : AliasId) (text : Text) : Resolve String := do
  let find (column : String) : Resolve String := do
    let component ← Resolve.componentOf .indexBy userAlias id
    match component.column? column with
    | some c => return c.name
    | none => throw (.unknownColumn .indexBy userAlias column)
  match text.path? with
  | some [column] => find column
  | some [owner, column] =>
    if (← Resolve.lookup? owner) = some id then find column
    else throw (.unknownAlias .indexBy owner)
  | _ => Resolve.malformed .indexBy (.invalidIndexColumn text)

/-- The graph of the root alone. -/
def resolveRoot (env : Surroundings) (root : Source) : Resolve JoinGraph := do
  let userAlias := root.effectiveAlias
  let component ← ExceptT.mk (pure (env.describe .from (root.path.headD "")))
  let id ← Resolve.bindComponent userAlias component
  let indexBy ← match root.indexBy with
    | some text => some <$> resolveIndexColumn userAlias id text
    | none => pure none
  return ⟨JoinNode.ofRoot id userAlias component indexBy, []⟩

/-- The occurrence of the graph that a join starts from. -/
def resolveStart (graph : JoinGraph) (declared : List String) (join head : String) :
    Resolve AliasId := do
  let unknown : Resolve AliasId :=
    if declared.contains head then throw (.ambiguousJoin .join join head)
    else throw (.unknownAlias .join head)
  match ← Resolve.lookup? head with
  | some id => if graph.contains id then return id else unknown
  | none => unknown

/-- Joins one relation of an occurrence under the given alias. -/
def resolveStep (env : Surroundings) (graph : JoinGraph) (kind : JoinKind) (head : String)
    (id : AliasId) (relation userAlias : String) : Resolve (JoinGraph × AliasId) := do
  let component ← Resolve.componentOf .join head id
  match component.relation? relation with
  | none => throw (.unknownRelation .join component.name relation)
  | some r => expandRelation env graph id component r kind userAlias

/-- Walks along relations from an occurrence that was reached by the path `walked`; the last one is
joined under the given alias, the others under their paths. -/
def resolvePath (env : Surroundings) (kind : JoinKind) (head userAlias : String) :
    JoinGraph → AliasId → (walked : String) → List String → Resolve (JoinGraph × AliasId)
  | graph, id, _, [] => return (graph, id)
  | graph, id, _, [relation] => resolveStep env graph kind head id relation userAlias
  | graph, id, walked, relation :: rest => do
    let path := walked ++ "." ++ relation
    match (← get).resolver.lookupLocal? path with
    | some known => resolvePath env kind head userAlias graph known path rest
    | none =>
      let (graph, next) ← resolveStep env graph kind head id relation path
      resolvePath env kind head userAlias graph next path rest

/-- The graph with one more join; `param` is the ordinal of the first placeholder of the query. -/
def resolveJoin (env : Surroundings) (subquery : ResolveSubquery) (param : Nat)
    (declared : List String) (graph : JoinGraph) (join : Joined) : Resolve JoinGraph := do
  let path := ".".intercalate join.source.path
  let head := join.source.path.headD ""
  let userAlias := join.source.effectiveAlias
  let start ← resolveStart graph declared path head
  if ((← get).resolver.lookupLocal? userAlias).isSome then
    Resolve.malformed .join (.repeatedAlias userAlias)
  else
    let (graph, id) ←
      resolvePath env join.kind head userAlias graph start head (join.source.path.drop 1)
    let graph ← match join.condition with
      | none => pure graph
      | some condition => do
        let expr ← resolveExpr env.config.scanner subquery .join {} (some ⟨path, declared⟩)
          (param + condition.segment.firstParam) condition.segment.text
        pure (graph.attach id ⟨condition.kind, expr⟩)
    match join.source.indexBy with
    | none => return graph
    | some text => return graph.indexBy id (← resolveIndexColumn userAlias id text)

/-- The join graph of a `FROM` clause. -/
def resolveFrom (env : Surroundings) (subquery : ResolveSubquery) (param : Nat)
    (clause : FromList) : Resolve JoinGraph := do
  let graph ← resolveRoot env clause.root
  clause.joins.foldlM (resolveJoin env subquery param clause.aliases) graph

end ObjectQuery
