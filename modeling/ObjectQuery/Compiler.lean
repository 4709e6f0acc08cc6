import ObjectQuery.Hydration.Plan
import ObjectQuery.Query.Builder
import ObjectQuery.Resolve.Query
import ObjectQuery.Sql.Count
import ObjectQuery.Sql.Limited
import ObjectQuery.Sql.Printer

/-! # Compiling queries

* `Compiler.compile`: the statement of a query, and how its rows are hydrated;
* `Compiler.compileCount`: the statement that counts its results;
* `Compiler.compileQuery`, `Compiler.compileCountQuery`: the same for a query in the making. -/

namespace ObjectQuery

/-- A statement, and how its rows are hydrated. -/
structure CompiledQuery extends Sql.Statement where
  hydrationPlan : HydrationPlan
  mode : HydrationMode

/-- A statement that counts, and the column of the count. -/
structure CompiledCount extends Sql.Statement where
  countAlias : String

/-- Compiles queries against one schema for one dialect. -/
structure Compiler extends Surroundings where
  dialect : Dialect

/-- As many values are given as the plan has placeholders. -/
def QueryPlan.checkParameters (p : QueryPlan) (values : List Value) : Except QueryError Unit :=
  if p.placeholders = values.length then .ok ()
  else .error (.parameterMismatch .query p.placeholders values.length)

namespace Compiler

/-- How the compiler writes statements. -/
def style (c : Compiler) : Sql.Style := ⟨c.dialect, c.config.quoteIdentifiers⟩

/-- The plan of a query whose placeholders take the given values. -/
def boundPlan (c : Compiler) (text : Text) (values : List Value) : Except QueryError QueryPlan := do
  let p ← plan c.toSurroundings text
  p.checkParameters values
  return p

/-- Compiles a query. -/
def compile (c : Compiler) (text : Text) (values : List Value) :
    Except QueryError CompiledQuery := do
  let p ← c.boundPlan text values
  return ⟨(p.selectStatement c.dialect).statement c.style values, .ofQueryPlan p,
    c.config.defaultHydration⟩

/-- Compiles the count of a query. -/
def compileCount (c : Compiler) (text : Text) (values : List Value) :
    Except QueryError CompiledCount := do
  let p ← c.boundPlan text values
  let column := c.config.countAlias
  return ⟨(p.countStatement column).statement c.style values, column⟩

/-- Compiles a query in the making. -/
def compileQuery (c : Compiler) (q : QueryBuilder) : Except QueryError CompiledQuery :=
  c.compile q.toText q.params

/-- Compiles the count of a query in the making. -/
def compileCountQuery (c : Compiler) (q : QueryBuilder) : Except QueryError CompiledCount :=
  c.compileCount q.toText q.params

end Compiler
end ObjectQuery
