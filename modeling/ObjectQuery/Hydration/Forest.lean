import ObjectQuery.Hydration.Plan
import ObjectQuery.Hydration.Record
import ObjectQuery.Value.Printer

/-! # The forest that rows grow

Every row is read along the nodes of a plan. At each node it either meets a record that is there,
which its key path tells, or adds one below the record of the node that holds it.

* `HydrationNode.identity`: what tells the record of a row apart at a node;
* `Branch`, `Branch.insert`: records under construction;
* `Branch.growFrom`: what one row adds. -/

namespace ObjectQuery

/-- A result row: the values of the result columns. -/
abbrev Row := Fields

/-- The value of a result column. -/
def HydrationNode.readOutput (n : HydrationNode) (row : Row) (output : String) :
    Except HydrationError Value :=
  match row.get? output with
  | some v => .ok v
  | none => .error (.missingColumn n.userAlias output)

/-- The values of bindings, in order. -/
def HydrationNode.readAll (n : HydrationNode) (row : Row) (bindings : List FieldBinding) :
    Except HydrationError (List Value) :=
  bindings.mapM fun b => n.readOutput row b.output

/-- What tells the record of a row apart from other records of the same holder; `none` when the row
has no record for the node. Without an identifier it is the number of the row, except that a
row without any value has no record below the root. -/
def HydrationNode.identity (n : HydrationNode) (row : Row) (number : Nat) :
    Except HydrationError (Option (List String)) := do
  if n.identifier.isEmpty then
    let values ← n.readAll row n.fields
    if values.all Value.isNull && n.parent.isSome then return none
    else return some ["#" ++ toString number]
  else
    let values ← n.readAll row n.identifier
    if values.all Value.isNull then return none else return some (values.map Value.render)

/-- The key of a record in an indexed collection. -/
def indexKey : Value → String
  | .string s => s
  | .null => ""
  | v => v.render

/-- A record under construction, with the records below it in order of creation. -/
structure Branch where
  /-- The position of its node. -/
  node : Nat
  identity : List String
  /-- The key in the collection it goes into. -/
  key : Option String
  data : List (String × Value)
  children : List Branch

/-- A record is found from the top by the node and the identity of each record on the way. -/
abbrev KeyPath := List (Nat × List String)

namespace Branch

/-- The step that leads to the branch. -/
def step (b : Branch) : Nat × List String := (b.node, b.identity)

/-- The forest has a branch at the end of the path. -/
def existsAt : KeyPath → List Branch → Bool
  | [], _ => true
  | s :: path, forest =>
    match forest.find? (·.step == s) with
    | some b => existsAt path b.children
    | none => false

/-- The forest with a branch added below the end of the path. -/
def insert (new : Branch) : KeyPath → List Branch → List Branch
  | [], forest => forest ++ [new]
  | s :: path, forest =>
    forest.map fun b =>
      if b.step == s then { b with children := insert new path b.children } else b

/-- The record of a row at a node. -/
def ofRow (n : HydrationNode) (position : Nat) (identity : List String) (row : Row) :
    Except HydrationError Branch := do
  let values ← n.readAll row n.bindings
  let key ← match n.indexBy with
    | some output => some <$> indexKey <$> n.readOutput row output
    | none => pure none
  return ⟨position, identity, key, Fields.ofPairs ((n.bindings.map (·.key)).zip values), []⟩

/-- The path to the holder of the records of a node; `none` when the row has no such record.
`current` are the paths to the records of the row at the nodes before. -/
def holder (current : List (Option KeyPath)) : Option Nat → Option KeyPath
  | none => some []
  | some parent => (current[parent]?).join

/-- What a row adds at the nodes from `position` on, and the error that stops it, if any; what it
adds before it stops remains. -/
def growFrom (row : Row) (number : Nat) :
    (position : Nat) → List (Option KeyPath) → List HydrationNode → List Branch →
      List Branch × Option HydrationError
  | _, _, [], forest => (forest, none)
  | position, current, n :: ns, forest =>
    match holder current n.parent with
    | none => growFrom row number (position + 1) (current ++ [none]) ns forest
    | some path =>
      match n.identity row number with
      | .error e => (forest, some e)
      | .ok none => growFrom row number (position + 1) (current ++ [none]) ns forest
      | .ok (some identity) =>
        let here := path ++ [(position, identity)]
        let current := current ++ [some here]
        if existsAt here forest then growFrom row number (position + 1) current ns forest
        else
          match ofRow n position identity row with
          | .error e => (forest, some e)
          | .ok b => growFrom row number (position + 1) current ns (b.insert path forest)

end Branch
end ObjectQuery
