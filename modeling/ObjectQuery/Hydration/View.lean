import ObjectQuery.Hydration.Forest

/-! # Records of a forest

* `Collection.ofEntries`: records in order of creation as a collection; in an indexed one a record
  takes the place of an earlier record with its key;
* `Branch.records`: the records of a forest;
* `rootCollection`: the collection of the roots. -/

namespace ObjectQuery

/-- A finished record with the position of its node and its key. -/
structure Entry where
  node : Nat
  key : Option String
  record : Record

/-- Keys and records, with one more record: at the end, or in place of the record that has its
key. -/
def placeEntry (placed : List String × List Record) (e : Entry) : List String × List Record :=
  match e.key with
  | none => (placed.1, placed.2 ++ [e.record])
  | some key =>
    match placed.1.idxOf? key with
    | some position => (placed.1, placed.2.set position e.record)
    | none => (placed.1 ++ [key], placed.2 ++ [e.record])

/-- The collection of the records of a node, given in order of creation. -/
def Collection.ofEntries (n : HydrationNode) (entries : List Entry) : Collection :=
  let placed := entries.foldl placeEntry ([], [])
  ⟨n.component, if n.indexBy.isSome then some placed.1 else none, placed.2⟩

/-- What a record holds at a node, given the records of that node below it. A relation to one holds
the latest record. -/
def Related.ofEntries (n : HydrationNode) (entries : List Entry) : Related :=
  if n.isCollection then .many (Collection.ofEntries n entries)
  else .one (entries.getLast?.map (·.record))

/-- What a record holds under its relations, given all records below it. A node that is listed
twice has records only where it is listed first. -/
def slotsOf (plan : HydrationPlan) (entries : List Entry) :
    (listed : List Nat) → List Nat → List (String × Related)
  | _, [] => []
  | listed, c :: cs =>
    match plan.nodes[c]? with
    | none => slotsOf plan entries (c :: listed) cs
    | some n =>
      let own := if listed.contains c then [] else entries.filter (·.node == c)
      (n.slotName, Related.ofEntries n own) :: slotsOf plan entries (c :: listed) cs

/-- The record with the given fields at a node, given all records below it. -/
def recordAt (plan : HydrationPlan) (node : Nat) (data : List (String × Value))
    (entries : List Entry) : Record :=
  match plan.nodes[node]? with
  | none => ⟨"", data, []⟩
  | some n => ⟨n.component, data, slotsOf plan entries [] n.children⟩

mutual

/-- The record of a branch. -/
def Branch.entry (plan : HydrationPlan) : Branch → Entry
  | ⟨node, _, key, data, children⟩ =>
    ⟨node, key, recordAt plan node data (Branch.entries plan children)⟩

/-- The records of the branches of a forest. -/
def Branch.entries (plan : HydrationPlan) : List Branch → List Entry
  | [] => []
  | b :: bs => b.entry plan :: Branch.entries plan bs

end

/-- The collection of the roots of a forest. -/
def rootCollection (plan : HydrationPlan) (forest : List Branch) : Collection :=
  match plan.root? with
  | none => ⟨"", none, []⟩
  | some n => Collection.ofEntries n (Branch.entries plan forest)

end ObjectQuery
