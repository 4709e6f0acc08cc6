import ObjectQuery.Plan.Basic
import ObjectQuery.Resolve.State

/-! # Joins that a relation stands for

A one-to-one or one-to-many relation is one join; a many-to-many relation is two, the bridge and
then the target. `expandRelation` adds them to a graph together with the predicates that the
relation demands.

* `structuralPredicate`, `bridgePredicate`, `targetPredicate`: the two sides belong together;
* `exclusion`: a record is not its own partner. -/

namespace ObjectQuery

/-- The pieces of `left = right`. -/
def equation (left : AliasId) (leftColumn : String) (right : AliasId) (rightColumn : String) :
    List Piece :=
  [.column left leftColumn, .text " = ".toList, .column right rightColumn]

/-- The pieces of two alternatives between parentheses. -/
def alternatives (first second : List Piece) : List Piece :=
  [.text ['(']] ++ first ++ [.text " OR ".toList] ++ second ++ [.text [')']]

/-- The predicate of a relation without a bridge. A one-to-many relation of a component to itself
holds in both directions unless it is directed. -/
def structuralPredicate (source target : AliasId) (selfReferential : Bool) (r : Relation) : Expr :=
  let forth := equation source r.localColumn target r.foreignColumn
  let back := equation source r.foreignColumn target r.localColumn
  if selfReferential && r.kind == .oneToMany && !r.directed then .plain (alternatives forth back)
  else .plain forth

/-- The predicate between the source of a many-to-many relation and its bridge. -/
def bridgePredicate (source bridge : AliasId) (sourceKey : String) (symmetric : Bool)
    (r : Relation) : Expr :=
  let forth := equation source sourceKey bridge r.localColumn
  let back := equation source sourceKey bridge r.foreignColumn
  if symmetric then .plain (alternatives forth back)
  else .plain ([.text ['(']] ++ forth ++ [.text [')']])

/-- The predicate between the target of a many-to-many relation and its bridge. -/
def targetPredicate (target bridge : AliasId) (targetKey : String) (symmetric : Bool)
    (r : Relation) : Expr :=
  let forth := equation target targetKey bridge r.foreignColumn
  let back := equation target targetKey bridge r.localColumn
  if symmetric then .plain (alternatives forth back) else .plain forth

/-- The pieces of lists of pieces with a text between them. -/
def joinPieces (separator : Text) : List (List Piece) → List Piece
  | [] => []
  | [p] => p
  | p :: ps => p ++ .text separator :: joinPieces separator ps

/-- Every column of the primary key differs between target and source. -/
def exclusion (target source : AliasId) (c : Component) : Expr :=
  .plain <| joinPieces " AND ".toList <| c.keyNames.map fun key =>
    [.column target key, .text " != ".toList, .column source key]

/-- What is demanded of the target of a relation in any case. -/
def extraPredicates (target source : AliasId) (selfReferential : Bool) (c : Component) :
    List Expr :=
  (if selfReferential then [exclusion target source c] else []) ++
    c.inheritance.toList.map (Expr.discriminator target)

/-- The first column of the primary key. -/
def requireKey (clause : Clause) (c : Component) : Except QueryError String :=
  match c.identifier? with
  | some column => .ok column.name
  | none => .error (.metadata clause (.noPrimaryKey c.name))

/-- The components that a relation leads to, checked before anything is bound. -/
inductive Expansion
  | direct (target : Component)
  | bridged (target bridge : Component) (sourceKey targetKey : String)

/-- Finds the components that a relation leads to. -/
def Expansion.ofRelation (env : Surroundings) (source : Component) (r : Relation) :
    Except QueryError Expansion := do
  let target ← env.describe .join r.target
  match r.kind with
  | .oneToOne | .oneToMany => return .direct target
  | .manyToMany =>
    match r.bridge with
    | none => .error (.metadata .join (.noBridge r.name))
    | some name =>
      let bridge ← env.describe .join name
      return .bridged target bridge (← requireKey .join source) (← requireKey .join target)

/-- Adds to the graph what the relation `r` of `source` leads to, under the given alias, and
answers the occurrence of the target. -/
def expandRelation (env : Surroundings) (graph : JoinGraph) (sourceId : AliasId)
    (source : Component) (r : Relation) (kind : JoinKind) (userAlias : String) :
    Resolve (JoinGraph × AliasId) := do
  let selfReferential := source.isSelfReferential r
  match ← ExceptT.mk (pure (Expansion.ofRelation env source r)) with
  | .direct target =>
    let id ← Resolve.bindComponent userAlias target
    let node : JoinNode := {
      id := id
      userAlias := some userAlias
      component := target
      role := .target
      parent := some sourceId
      source := some sourceId
      relation := some r
      kind := kind
      indexBy := none
      structural := some (structuralPredicate sourceId id selfReferential r)
      condition := none
      extra := extraPredicates id sourceId selfReferential target }
    return (graph.add [node], id)
  | .bridged target bridge sourceKey targetKey =>
    let symmetric := selfReferential && !r.directed
    let id ← Resolve.bindComponent userAlias target
    let bridgeId ← Resolve.assignComponent bridge
    let bridgeNode : JoinNode := {
      id := bridgeId
      userAlias := none
      component := bridge
      role := .bridge
      parent := some sourceId
      source := some sourceId
      relation := some r
      kind := kind
      indexBy := none
      structural := some (bridgePredicate sourceId bridgeId sourceKey symmetric r)
      condition := none
      extra := [] }
    let node : JoinNode := {
      id := id
      userAlias := some userAlias
      component := target
      role := .target
      parent := some bridgeId
      source := some sourceId
      relation := some r
      kind := kind
      indexBy := none
      structural := some (targetPredicate id bridgeId targetKey symmetric r)
      condition := none
      extra := extraPredicates id sourceId selfReferential target }
    return (graph.add [bridgeNode, node], id)

end ObjectQuery
