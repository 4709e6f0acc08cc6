import ObjectQuery.Value.Decimal

/-! # Values

The values that queries bind, rows carry and schemas name: the data model of JSON, with whole
numbers kept apart from numbers with a fraction, and object fields in the order they were written.

* `Value.decEq`: equality is decidable;
* `Fields.put`, `Fields.ofPairs`: association lists in which a repeated name keeps its place and
  takes its last value;
* `Value.merged`: the same throughout a value. -/

namespace ObjectQuery

/-- A value of a parameter, a result column or a discriminator. -/
inductive Value
  | null
  | bool (b : Bool)
  /-- A whole number. -/
  | int (n : Int)
  /-- A number with a fraction; `1.0` is not the whole number `1`. -/
  | decimal (d : Decimal)
  | string (s : String)
  | array (items : List Value)
  | object (fields : List (String × Value))
deriving Repr, Inhabited

/-- An association list from names to values, in order of insertion. -/
abbrev Fields := List (String × Value)

namespace Value

mutual

/-- Decides equality of values. -/
def decEq : (a b : Value) → Decidable (a = b)
  | null, b => match b with
    | null => isTrue rfl
    | bool _ | int _ | decimal _ | string _ | array _ | object _ => isFalse nofun
  | bool x, b => match b with
    | bool y => decidable_of_iff (x = y) (by simp)
    | null | int _ | decimal _ | string _ | array _ | object _ => isFalse nofun
  | int x, b => match b with
    | int y => decidable_of_iff (x = y) (by simp)
    | null | bool _ | decimal _ | string _ | array _ | object _ => isFalse nofun
  | decimal x, b => match b with
    | decimal y => decidable_of_iff (x = y) (by simp)
    | null | bool _ | int _ | string _ | array _ | object _ => isFalse nofun
  | string x, b => match b with
    | string y => decidable_of_iff (x = y) (by simp)
    | null | bool _ | int _ | decimal _ | array _ | object _ => isFalse nofun
  | array xs, b => match b with
    | array ys =>
      have := decEqItems xs ys
      decidable_of_iff (xs = ys) (by simp)
    | null | bool _ | int _ | decimal _ | string _ | object _ => isFalse nofun
  | object xs, b => match b with
    | object ys =>
      have := decEqFields xs ys
      decidable_of_iff (xs = ys) (by simp)
    | null | bool _ | int _ | decimal _ | string _ | array _ => isFalse nofun

/-- Decides equality of the items of arrays. -/
def decEqItems : (as bs : List Value) → Decidable (as = bs)
  | [], [] => isTrue rfl
  | [], _ :: _ | _ :: _, [] => isFalse nofun
  | a :: as, b :: bs =>
    have := decEq a b
    have := decEqItems as bs
    decidable_of_iff (a = b ∧ as = bs) (by simp)

/-- Decides equality of the fields of objects. -/
def decEqFields : (as bs : List (String × Value)) → Decidable (as = bs)
  | [], [] => isTrue rfl
  | [], _ :: _ | _ :: _, [] => isFalse nofun
  | (n, a) :: as, (k, b) :: bs =>
    have := decEq a b
    have := decEqFields as bs
    decidable_of_iff (n = k ∧ a = b ∧ as = bs) (by simp [and_assoc])

end

instance : DecidableEq Value := decEq

/-- The value is `null`. -/
def isNull : Value → Bool
  | null => true
  | _ => false

/-- The fields of an object; a value of any other kind has none. -/
def fields : Value → Fields
  | object fs => fs
  | _ => []

end Value

namespace Fields

/-- The first value under a name. -/
def get? (fs : Fields) (name : String) : Option Value :=
  match fs with
  | [] => none
  | (n, v) :: rest => if n == name then some v else get? rest name

/-- Sets the value under a name: in place when the name is there, at the end otherwise. -/
def put (fs : Fields) (name : String) (v : Value) : Fields :=
  match fs with
  | [] => [(name, v)]
  | (n, w) :: rest => if n == name then (n, v) :: rest else (n, w) :: put rest name v

/-- The pairs put one after the other into an empty association list. -/
def ofPairs (pairs : List (String × Value)) : Fields :=
  pairs.foldl (fun fs p => fs.put p.1 p.2) []

end Fields

namespace Value

mutual

/-- The value with every repeated field of an object merged into its first place. -/
def merged : Value → Value
  | array items => array (mergedItems items)
  | object fields => object (Fields.ofPairs (mergedFields fields))
  | other => other

/-- `merged` item by item. -/
def mergedItems : List Value → List Value
  | [] => []
  | v :: vs => merged v :: mergedItems vs

/-- `merged` field by field. -/
def mergedFields : List (String × Value) → List (String × Value)
  | [] => []
  | (n, v) :: fs => (n, merged v) :: mergedFields fs

end

end Value
end ObjectQuery
