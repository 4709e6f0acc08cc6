import ObjectQuery.Query.Clause
import ObjectQuery.Schema.Error
import ObjectQuery.Text.Scan

/-! # Errors of a query

Every reason for which a query cannot be compiled, together with the clause it was found in. -/

namespace ObjectQuery

/-- What is wrong with the form of a query. -/
inductive SyntaxFault
  /-- Quotes or parentheses are not balanced. -/
  | unbalanced (fault : Fault)
  | emptyQuery
  | noLeadingClause (found : Text)
  | repeatedClause
  | emptyClause
  | emptyDistinct
  | notACount (found : Text)
  | noSource
  | emptyElement
  | missingPath
  | invalidPath (path : Text)
  | notAComponent (path : Text)
  | notARelation (path : Text)
  | missingAlias (path : Text)
  | rootCondition
  | emptyCondition
  | missingIndexColumn
  | unexpectedWord (word : Text)
  | repeatedAlias (name : String)
  | invalidIndexColumn (column : Text)
  | emptyItem
  | boundOrdering (ordering : Text)
  | namedParameter (parameter : Text)
  | nestedTooDeep (levels : Nat)
deriving DecidableEq, Repr

/-- The wording of the fault. -/
def SyntaxFault.message : SyntaxFault → String
  | unbalanced fault => fault.message
  | emptyQuery => "query is empty"
  | noLeadingClause found => s!"expected SELECT or FROM, found `{String.ofList found}`"
  | repeatedClause => "clause appears more than once"
  | emptyClause => "clause is empty"
  | emptyDistinct => "nothing selected after DISTINCT"
  | notACount found => s!"expected a non-negative integer, found `{String.ofList found}`"
  | noSource => "query has no FROM clause"
  | emptyElement => "empty component reference"
  | missingPath => "missing component path"
  | invalidPath path => s!"invalid component path `{String.ofList path}`"
  | notAComponent path => s!"`{String.ofList path}` is not a component name"
  | notARelation path =>
    s!"join `{String.ofList path}` must be a relation path like `alias.Relation`"
  | missingAlias path => s!"AS after `{String.ofList path}` must be followed by an alias"
  | rootCondition => "the root component cannot carry a join condition"
  | emptyCondition => "empty join condition"
  | missingIndexColumn => "INDEXBY without a column"
  | unexpectedWord word => s!"unexpected `{String.ofList word}`"
  | repeatedAlias name => s!"alias `{name}` is defined more than once"
  | invalidIndexColumn column => s!"invalid INDEXBY column `{String.ofList column}`"
  | emptyItem => "empty list item"
  | boundOrdering ordering =>
    s!"default ordering `{String.ofList ordering}` cannot bind parameters"
  | namedParameter parameter =>
    s!"named parameter `{String.ofList parameter}` is not supported, use positional `?`"
  | nestedTooDeep levels => s!"subqueries nested deeper than {levels} level(s)"

/-- What the schema lacks for a query. -/
inductive SchemaFault
  /-- The catalog gave no component. -/
  | unavailable (reason : CatalogError)
  | noBridge (relation : String)
  | noPrimaryKey (component : String)
deriving DecidableEq, Repr

/-- The wording of the fault. -/
def SchemaFault.message : SchemaFault → String
  | unavailable reason => reason.message
  | noBridge relation => s!"many-to-many relation `{relation}` has no bridge component"
  | noPrimaryKey component => s!"component `{component}` has no primary key"

/-- Why a query cannot be compiled. -/
inductive QueryError
  | malformed (clause : Clause) (fault : SyntaxFault)
  | unknownComponent (clause : Clause) (component : String)
  | unknownRelation (clause : Clause) (component relation : String)
  | unknownAlias (clause : Clause) (name : String)
  | unknownField (clause : Clause) (name field : String)
  | unknownColumn (clause : Clause) (name column : String)
  /-- A join reads an alias that is joined only after it. -/
  | ambiguousJoin (clause : Clause) (join name : String)
  | parameterMismatch (clause : Clause) (expected given : Nat)
  | metadata (clause : Clause) (fault : SchemaFault)
deriving DecidableEq, Repr

namespace QueryError

/-- The clause the error was found in. -/
def clause : QueryError → Clause
  | malformed c _ | unknownComponent c _ | unknownRelation c _ _ | unknownAlias c _
  | unknownField c _ _ | unknownColumn c _ _ | ambiguousJoin c _ _ | parameterMismatch c _ _
  | metadata c _ => c

/-- The wording of the error. -/
def message : QueryError → String
  | malformed c fault => s!"Syntax error in {c.name} clause: {fault.message}"
  | unknownComponent c component => s!"Unknown component `{component}` in {c.name} clause"
  | unknownRelation c component relation =>
    s!"Component `{component}` has no relation `{relation}` ({c.name} clause)"
  | unknownAlias c name => s!"Unknown alias `{name}` in {c.name} clause"
  | unknownField c name field => s!"`{field}` is not a field of `{name}` ({c.name} clause)"
  | unknownColumn c name column =>
    s!"Cannot index `{name}` by `{column}`: no such column ({c.name} clause)"
  | ambiguousJoin c join name =>
    s!"Condition of join `{join}` references `{name}` before it is joined ({c.name} clause)"
  | parameterMismatch c expected given =>
    s!"Query has {expected} placeholder(s) but {given} value(s) were bound ({c.name} clause)"
  | metadata c fault => s!"Schema metadata unavailable in {c.name} clause: {fault.message}"

/-- The error for a text whose quotes or parentheses are not balanced. -/
def unbalanced (c : Clause) (fault : Fault) : QueryError := malformed c (.unbalanced fault)

/-- The error for a component that a catalog did not give. -/
def ofCatalog (c : Clause) : CatalogError → QueryError
  | .unknownComponent component => unknownComponent c component
  | reason => metadata c (.unavailable reason)

end QueryError

/-- The result of a scan as part of reading the given clause. -/
def Except.inClause (c : Clause) (r : Except Fault α) : Except QueryError α :=
  r.mapError (QueryError.unbalanced c)

end ObjectQuery
