import ObjectQuery.Compiler
import ObjectQuery.Hydration.Hydrator
import ObjectQuery.Text.Name
import ObjectQuery.Text.Numeral

/-! # Fetching results

Compiled queries are run by a connection, which answers with rows or refuses.

* `fetch`, `fetchDefault`: the hydrated rows of a query;
* `fetchCount`: the number that a count statement answers. -/

namespace ObjectQuery

/-- What runs statements: it refuses with a reason, or answers with rows, some of which may fail to
arrive. -/
structure Connection (m : Type → Type) where
  execute : String → List Value → m (Except String (List (Except String Row)))

/-- Why there is no result. -/
inductive FetchError
  | connection (reason : String)
  | hydration (error : HydrationError)
  | missingCount (column : String)
deriving DecidableEq, Repr

/-- The wording of the error. -/
def FetchError.message : FetchError → String
  | connection reason => s!"Query execution failed: {reason}"
  | hydration error => error.message
  | missingCount column => s!"Count query returned no `{column}` column"

/-- Takes rows as they arrive, up to the first that fails to arrive or lacks a column. -/
def Hydrator.pushArriving (h : Hydrator) : List (Except String Row) → Except FetchError Hydrator
  | [] => .ok h
  | .error reason :: _ => .error (.connection reason)
  | .ok row :: rows =>
    match h.push row with
    | (h, none) => h.pushArriving rows
    | (_, some e) => .error (.hydration e)

/-- Runs a compiled query and hydrates its rows. -/
def fetch [Monad m] (c : Connection m) (q : CompiledQuery) (mode : HydrationMode) :
    m (Except FetchError HydratedResult) := do
  match ← c.execute q.sql q.params with
  | .error reason => return .error (.connection reason)
  | .ok rows =>
    return ((Hydrator.new q.hydrationPlan mode).pushArriving rows).map (·.finish)

/-- Runs a compiled query and hydrates its rows in the mode it was compiled for. -/
def fetchDefault [Monad m] (c : Connection m) (q : CompiledQuery) :
    m (Except FetchError HydratedResult) :=
  fetch c q q.mode

/-- The count that a value stands for: a whole number, or a numeral with blanks around it. -/
def countOf? : Value → Option Nat
  | .int n => if 0 ≤ n then some n.toNat else none
  | .string s => (Text.numeral countBound (Text.trim s.toList)).toOption
  | _ => none

/-- The count in the first row of the result of a count statement. -/
def countOfRows (column : String) : List (Except String Row) → Except FetchError Nat
  | [] => .error (.missingCount column)
  | .error reason :: _ => .error (.connection reason)
  | .ok row :: _ =>
    match row.get? column >>= countOf? with
    | some n => .ok n
    | none => .error (.missingCount column)

/-- Runs a compiled count. -/
def fetchCount [Monad m] (c : Connection m) (q : CompiledCount) : m (Except FetchError Nat) := do
  match ← c.execute q.sql q.params with
  | .error reason => return .error (.connection reason)
  | .ok rows => return countOfRows q.countAlias rows

end ObjectQuery
