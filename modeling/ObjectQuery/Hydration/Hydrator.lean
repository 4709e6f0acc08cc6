import ObjectQuery.Hydration.View

/-! # Hydration

A hydrator takes rows one after the other and hands back what they amount to. A row that lacks a
column is reported, and the rows after it are taken all the same.

* `Hydrator.push`: takes a row;
* `Hydrator.finish`: the result so far;
* `hydrate`: all rows of a list, up to the first that is reported. -/

namespace ObjectQuery

/-- Rows on their way to a result. -/
structure Hydrator where
  plan : HydrationPlan
  mode : HydrationMode
  /-- The records of the rows, in the modes that make records. -/
  forest : List Branch := []
  /-- The flat rows, in the mode that makes them. -/
  flat : List (List (String × Value)) := []
  /-- The number of rows taken. -/
  rowsSeen : Nat := 0

/-- The values of a row under the names of aliases and fields together. -/
def flatRow (plan : HydrationPlan) (row : Row) : Except HydrationError (List (String × Value)) := do
  let pairs ← plan.nodes.mapM fun n => do
    let values ← n.readAll row n.bindings
    return (n.bindings.map fun b => n.userAlias ++ "_" ++ b.key).zip values
  return Fields.ofPairs pairs.flatten

namespace Hydrator

/-- A hydrator that has taken no row. -/
def new (plan : HydrationPlan) (mode : HydrationMode) : Hydrator := { plan := plan, mode := mode }

/-- Takes a row, and answers the error if it lacks a column. -/
def push (h : Hydrator) (row : Row) : Hydrator × Option HydrationError :=
  let h := { h with rowsSeen := h.rowsSeen + 1 }
  match h.mode with
  | .record | .array =>
    let (forest, error) := Branch.growFrom row h.rowsSeen 0 [] h.plan.nodes h.forest
    ({ h with forest := forest }, error)
  | .scalar =>
    match flatRow h.plan row with
    | .ok flat => ({ h with flat := h.flat ++ [flat] }, none)
    | .error e => (h, some e)

/-- What the rows amount to. -/
def finish (h : Hydrator) : HydratedResult :=
  match h.mode with
  | .record => .records (rootCollection h.plan h.forest)
  | .array => .array (rootCollection h.plan h.forest).toValue
  | .scalar => .scalar h.flat

/-- Takes rows up to the first that lacks a column. -/
def pushAll (h : Hydrator) : List Row → Except HydrationError Hydrator
  | [] => .ok h
  | row :: rows =>
    match h.push row with
    | (h, none) => h.pushAll rows
    | (_, some e) => .error e

end Hydrator

/-- Hydrates a list of rows. -/
def hydrate (plan : HydrationPlan) (mode : HydrationMode) (rows : List Row) :
    Except HydrationError HydratedResult := do
  return (← (Hydrator.new plan mode).pushAll rows).finish

end ObjectQuery
