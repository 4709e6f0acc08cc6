import ObjectQuery.Config.Basic
import ObjectQuery.Document.Reader
import ObjectQuery.Text.Numeral

/-! # Reading configurations

A configuration comes from a document or from environment variables; settings that are missing
keep their defaults.

* `Config.decode?`: the settings of a record, unchecked;
* `Config.read`: the settings of a document, checked;
* `Config.ofEnvironment`: the settings of environment variables, checked. -/

namespace ObjectQuery

/-- What is wrong with the text of a setting. -/
inductive SettingFault
  | notABool
  | notANumber (fault : NumeralFault)
  | notAMode (fault : HydrationError)
deriving DecidableEq, Repr

/-- The wording of the fault. -/
def SettingFault.message : SettingFault → String
  | notABool => "provided string was not `true` or `false`"
  | notANumber fault => fault.message
  | notAMode fault => fault.message

/-- Why there is no configuration. -/
inductive ConfigError
  /-- The text of an environment variable does not stand for a setting. -/
  | badVariable (name value : String) (fault : SettingFault)
  /-- The document is not a configuration. -/
  | malformed
  /-- Some settings make no sense. -/
  | invalid (faults : List ConfigFault)
deriving DecidableEq, Repr

/-- The wording of the error. -/
def ConfigError.message : ConfigError → String
  | badVariable name value fault => s!"Parse error for {name}: {value} - {fault.message}"
  | malformed => "Parse error"
  | invalid faults => "Validation error: " ++ ", ".intercalate (faults.map (·.message))

/-- The first depth that does not fit its setting. -/
def depthBound : Nat := Nat.pow 2 32

namespace Config

/-- The configuration, if all its settings make sense. -/
def checked (c : Config) : Except ConfigError Config :=
  match c.faults with
  | [] => .ok c
  | faults => .error (.invalid faults)

section

open DataTree

variable {δ : Type} [DataTree δ]

/-- The depth that a whole number stands for. -/
def decodeDepth? (d : δ) : Option Nat := do
  let n ← nat? d
  if n < depthBound then some n else none

/-- The hydration mode that a string names. -/
def decodeMode? (d : δ) : Option HydrationMode := do HydrationMode.ofName? (← string? d)

/-- The settings of a record. -/
def decode? (d : δ) : Option Config := do
  let es ← fields? d
  let c : Config := {}
  return {
    quoteIdentifiers := ← es.withDefault "quote_identifiers" bool? c.quoteIdentifiers
    pruneJoins := ← es.withDefault "prune_unreferenced_joins" bool? c.pruneJoins
    maxSubqueryDepth := ← es.withDefault "max_subquery_depth" decodeDepth? c.maxSubqueryDepth
    countAlias := ← es.withDefault "count_alias" string? c.countAlias
    defaultHydration := ← es.withDefault "default_hydration" decodeMode? c.defaultHydration
    backslashEscapes := ← es.withDefault "backslash_escapes" bool? c.backslashEscapes }

end

/-- The configuration that a document holds. -/
def read (text : String) : Except ConfigError Config :=
  match Document.read text >>= decode? with
  | some c => c.checked
  | none => .error .malformed

/-- The setting of a variable, read by `parse` where the variable is set. -/
def setting (env : String → Option String) (name : String)
    (parse : String → Except SettingFault α) (default : α) : Except ConfigError α :=
  match env name with
  | none => .ok default
  | some value => (parse value).mapError (.badVariable name value)

/-- A truth value. -/
def readBool : String → Except SettingFault Bool
  | "true" => .ok true
  | "false" => .ok false
  | _ => .error .notABool

/-- The configuration that environment variables ask for. -/
def ofEnvironment (env : String → Option String) : Except ConfigError Config := do
  let d : Config := {}
  let quote ← setting env "DQL_QUOTE_IDENTIFIERS" readBool d.quoteIdentifiers
  let prune ← setting env "DQL_PRUNE_JOINS" readBool d.pruneJoins
  let depth ← setting env "DQL_MAX_SUBQUERY_DEPTH"
    (fun s => (Text.numeral depthBound s.toList).mapError .notANumber) d.maxSubqueryDepth
  let mode ← setting env "DQL_DEFAULT_HYDRATION"
    (fun s => (HydrationMode.parse s).mapError .notAMode) d.defaultHydration
  let escapes ← setting env "DQL_BACKSLASH_ESCAPES" readBool d.backslashEscapes
  checked {
    quoteIdentifiers := quote
    pruneJoins := prune
    maxSubqueryDepth := depth
    countAlias := (env "DQL_COUNT_ALIAS").getD d.countAlias
    defaultHydration := mode
    backslashEscapes := escapes }

end Config
end ObjectQuery
