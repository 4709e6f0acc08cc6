import ObjectQuery.Hydration.Mode
import ObjectQuery.Value.Basic

/-! # Records

A record holds the fields of one component and, under the names of relations, related records:
one, none, or a collection of them.

* `Record`, `Related`, `Collection`;
* `Record.toValue`, `Collection.toValue`: the same as nested values;
* `HydratedResult`: what rows are made into. -/

namespace ObjectQuery

mutual

/-- A record of a component. -/
structure Record where
  component : String
  data : List (String × Value)
  /-- The related records, in the order of the joins. -/
  relations : List (String × Related)

/-- The records that a record holds under one relation. -/
inductive Related
  | one (record : Option Record)
  | many (records : Collection)

/-- Records in order. -/
structure Collection where
  component : String
  /-- The keys of the records, when the collection is indexed. -/
  keys : Option (List String)
  records : List Record

end

namespace Record

/-- The value of a field. -/
def get? (r : Record) (field : String) : Option Value := Fields.get? r.data field

/-- What the record holds under a relation. -/
def related? (r : Record) (relation : String) : Option Related :=
  (r.relations.find? (·.1 == relation)).map (·.2)

/-- The record under a relation to one. -/
def one? (r : Record) (relation : String) : Option Record :=
  match r.related? relation with
  | some (.one record) => record
  | _ => none

/-- The records under a relation to many. -/
def many? (r : Record) (relation : String) : Option Collection :=
  match r.related? relation with
  | some (.many records) => some records
  | _ => none

end Record

namespace Collection

/-- The number of records. -/
def size (c : Collection) : Nat := c.records.length

/-- There are no records. -/
def isEmpty (c : Collection) : Bool := c.records.isEmpty

/-- The records have keys. -/
def isIndexed (c : Collection) : Bool := c.keys.isSome

/-- The record at a position. -/
def at? (c : Collection) (position : Nat) : Option Record := c.records[position]?

/-- The record under a key. -/
def get? (c : Collection) (key : String) : Option Record := do
  let position ← (← c.keys).idxOf? key
  c.at? position

end Collection

mutual

/-- The record as an object: its fields, then what it holds under its relations. -/
def Record.toValue : Record → Value
  | ⟨_, data, relations⟩ =>
    .object ((Record.relationValues relations).foldl (fun fs p => Fields.put fs p.1 p.2) data)

/-- What is held under each relation, as values. -/
def Record.relationValues : List (String × Related) → List (String × Value)
  | [] => []
  | (name, related) :: rest => (name, related.toValue) :: Record.relationValues rest

/-- Related records as an object, an array or `null`. -/
def Related.toValue : Related → Value
  | .one none => .null
  | .one (some record) => record.toValue
  | .many records => records.toValue

/-- A collection as an array, or as an object when it is indexed. -/
def Collection.toValue : Collection → Value
  | ⟨_, none, records⟩ => .array (Record.values records)
  | ⟨_, some keys, records⟩ => .object (Fields.ofPairs (keys.zip (Record.values records)))

/-- Records as values. -/
def Record.values : List Record → List Value
  | [] => []
  | r :: rs => r.toValue :: Record.values rs

end

/-- What rows are made into. -/
inductive HydratedResult
  | records (c : Collection)
  | array (v : Value)
  | scalar (rows : List (List (String × Value)))

namespace HydratedResult

/-- The number of results at the top. -/
def size : HydratedResult → Nat
  | records c => c.size
  | array (.array items) => items.length
  | array (.object fields) => fields.length
  | array _ => 0
  | scalar rows => rows.length

/-- There are no results. -/
def isEmpty (r : HydratedResult) : Bool := r.size == 0

/-- The result as a value. -/
def toValue : HydratedResult → Value
  | records c => c.toValue
  | array v => v
  | scalar rows => .array (rows.map .object)

end HydratedResult
end ObjectQuery
