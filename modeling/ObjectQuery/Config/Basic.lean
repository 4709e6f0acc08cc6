import ObjectQuery.Hydration.Mode
import ObjectQuery.Text.Scan

/-! # Configuration of the compiler -/

namespace ObjectQuery

/-- The settings of the compiler. -/
structure Config where
  /-- Table, alias and column names are quoted in SQL. -/
  quoteIdentifiers : Bool := false
  /-- Left joins that nothing reads are left out. -/
  pruneJoins : Bool := false
  /-- How deep subqueries may be nested. -/
  maxSubqueryDepth : Nat := 4
  /-- The column of a count statement. -/
  countAlias : String := "num_results"
  /-- The mode rows are hydrated in unless the caller picks one. -/
  defaultHydration : HydrationMode := .record
  /-- A backslash in a string literal escapes the next character. -/
  backslashEscapes : Bool := false
deriving DecidableEq, Repr

/-- A setting with a value that makes no sense. -/
inductive ConfigFault
  | depthOutOfRange
  | emptyCountAlias
deriving DecidableEq, Repr

namespace ConfigFault

/-- The setting at fault. -/
def field : ConfigFault → String
  | depthOutOfRange => "max_subquery_depth"
  | emptyCountAlias => "count_alias"

/-- The wording of the fault. -/
def message : ConfigFault → String
  | depthOutOfRange => "Max subquery depth must be between 1 and 16"
  | emptyCountAlias => "Count alias cannot be empty"

end ConfigFault

namespace Config

/-- How string literals are scanned. -/
def scanner (c : Config) : Scanner := ⟨c.backslashEscapes⟩

/-- All settings that make no sense. -/
def faults (c : Config) : List ConfigFault :=
  (if 1 ≤ c.maxSubqueryDepth && c.maxSubqueryDepth ≤ 16 then [] else [.depthOutOfRange]) ++
    (if c.countAlias.isEmpty then [.emptyCountAlias] else [])

end Config
end ObjectQuery
