import ObjectQuery.Alias.Resolver
import ObjectQuery.Config.Basic
import ObjectQuery.Query.Error
import ObjectQuery.Schema.Catalog

/-! # The state of a resolution

Resolving a query binds aliases to occurrences of tables and remembers the component of each.
`Resolve` is a computation on these bindings that may fail; what it has bound stays bound when it
fails, and `Resolve.inScope` leaves the scope it entered either way. -/

namespace ObjectQuery

/-- What a query is resolved against. -/
structure Surroundings where
  provider : Provider
  config : Config

/-- The aliases bound so far, and the component of each occurrence. -/
structure Bindings where
  resolver : Resolver := {}
  /-- The components of the occurrences, the latest first. -/
  components : List (AliasId × Component) := []

/-- The component of an occurrence. -/
def Bindings.component? (b : Bindings) (id : AliasId) : Option Component :=
  (b.components.find? (·.1 == id)).map (·.2)

/-- A computation on bindings that may fail. -/
abbrev Resolve := ExceptT QueryError (StateM Bindings)

/-- The component under a name. -/
def Surroundings.describe (env : Surroundings) (clause : Clause) (name : String) :
    Except QueryError Component :=
  (env.provider name).mapError (QueryError.ofCatalog clause)

namespace Resolve

/-- A failure in the form of a clause. -/
def malformed (clause : Clause) (fault : SyntaxFault) : Resolve α :=
  throw (.malformed clause fault)

/-- Runs a scan for the given clause. -/
def scanning (clause : Clause) (r : Except Fault α) : Resolve α :=
  ExceptT.mk (pure (Except.inClause clause r))

/-- Changes the aliases in scope. -/
def onResolver (f : Resolver → α × Resolver) : Resolve α := do
  let b ← get
  let (a, resolver) := f b.resolver
  set { b with resolver := resolver }
  return a

/-- Remembers the component of an occurrence. -/
def remember (id : AliasId) (component : Component) : Resolve Unit :=
  modify fun b => { b with components := (id, component) :: b.components }

/-- Binds an alias to a new occurrence of a component. -/
def bindComponent (userAlias : String) (component : Component) : Resolve AliasId := do
  let id ← onResolver (·.bind userAlias component.table)
  remember id component
  return id

/-- A new occurrence of a component without an alias. -/
def assignComponent (component : Component) : Resolve AliasId := do
  let id ← onResolver (·.assign component.table)
  remember id component
  return id

/-- The occurrence that an alias stands for. -/
def lookup? (userAlias : String) : Resolve (Option AliasId) := do
  return (← get).resolver.lookup? userAlias

/-- The occurrence that an alias must stand for. -/
def lookup (clause : Clause) (userAlias : String) : Resolve AliasId := do
  match ← lookup? userAlias with
  | some id => return id
  | none => throw (.unknownAlias clause userAlias)

/-- The component of the occurrence that an alias stands for. -/
def componentOf (clause : Clause) (userAlias : String) (id : AliasId) : Resolve Component := do
  match (← get).component? id with
  | some component => return component
  | none => throw (.unknownAlias clause userAlias)

/-- Runs a computation in a scope of its own, and leaves the scope whatever the outcome. -/
def inScope (x : Resolve α) : Resolve α := ExceptT.mk do
  modify fun b => { b with resolver := b.resolver.pushScope }
  let r ← x.run
  modify fun b => { b with resolver := b.resolver.popScope }
  return r

end Resolve
end ObjectQuery
