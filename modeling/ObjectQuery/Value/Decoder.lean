import ObjectQuery.Value.Basic

/-! # Decoding records

Readers for data of a fixed shape. A reader answers `none` when the data does not have the shape;
a record may hold fields that nothing asks for, but none that is asked for twice.

* `DataTree`: the questions that a reader may put to a piece of data;
* `Entries.required`, `Entries.withDefault`, `Entries.optional`: the fields of a record. -/

namespace ObjectQuery

/-- The fields of a record, as they are written. -/
abbrev Entries (δ : Type) := List (String × δ)

/-- Data that records are decoded from. Each question has the answer `none` for data that it does
not make sense for. -/
class DataTree (δ : Type) where
  /-- The data stands for nothing. -/
  isNull : δ → Bool
  /-- The data as a string. -/
  string? : δ → Option String
  /-- The data as a truth value. -/
  bool? : δ → Option Bool
  /-- The data as a whole number that is not negative. -/
  nat? : δ → Option Nat
  /-- The items of a list. -/
  items? : δ → Option (List δ)
  /-- The fields of a record. -/
  fields? : δ → Option (Entries δ)
  /-- The data as a value. -/
  value? : δ → Option Value

namespace DataTree

variable {δ α : Type} [DataTree δ]

/-- The items of a list, each decoded. -/
def listOf? (item : δ → Option α) (d : δ) : Option (List α) := do (← items? d).mapM item

/-- Decoded data, or nothing for `null`. -/
def orNull (item : δ → Option α) (d : δ) : Option (Option α) :=
  if isNull d then some none else (item d).map some

end DataTree

namespace Entries

variable {δ α : Type}

/-- The data of a field that is there at most once. -/
def lookup? (es : Entries δ) (name : String) : Option (Option δ) :=
  match es.filter (·.1 == name) with
  | [] => some none
  | [(_, d)] => some (some d)
  | _ => none

/-- A field that must be there. -/
def required (es : Entries δ) (name : String) (item : δ → Option α) : Option α := do
  item (← ← es.lookup? name)

/-- A field with a default for when it is missing. -/
def withDefault (es : Entries δ) (name : String) (item : δ → Option α) (default : α) :
    Option α := do
  match ← es.lookup? name with
  | some d => item d
  | none => default

/-- A field that may be missing or `null`. -/
def optional [DataTree δ] (es : Entries δ) (name : String) (item : δ → Option α) :
    Option (Option α) :=
  es.withDefault name (DataTree.orNull item) none

end Entries

/-- A value is what it is: nothing is converted. -/
instance : DataTree Value where
  isNull := Value.isNull
  string?
    | .string s => some s
    | _ => none
  bool?
    | .bool b => some b
    | _ => none
  nat?
    | .int n => if 0 ≤ n then some n.toNat else none
    | _ => none
  items?
    | .array items => some items
    | _ => none
  fields?
    | .object fields => some fields
    | _ => none
  value? v := some v.merged

end ObjectQuery
