import ObjectQuery.Plan.Graph

/-! # Completing a select list

The result of a query can be made into records only when the keys of the records are in it.
`completeSelection` adds what is missing and puts the list into its final order, and
`nameOutputs` names the result columns.

* `requiredFields`: the columns that have to be selected, as pairs of alias and column;
* `completeSelection`: the completed select list;
* `nameOutputs`: the select list with its result columns named. -/

namespace ObjectQuery

/-- The columns of the list that belong to the primary key of their component, for the
expressions that are plain columns. -/
def groupedKeys (graph : JoinGraph) (groupBy : List Expr) : List (AliasId × String) :=
  (groupBy.filterMap Expr.asColumn?).filter fun c =>
    (graph.node? c.1).any (·.component.isKey c.2)

/-- The aliases whose records are made: those of the select list and, where every row is a record,
those that hold them. -/
def hydratedAliases (graph : JoinGraph) (c : ClauseSet) : AliasSet :=
  let selected := AliasSet.ofList (c.select.map (·.owner))
  if c.hasAggregates || !c.groupBy.isEmpty then selected
  else selected.toList.foldl (fun s a => s ∪ AliasSet.ofList (graph.ancestors a)) selected

/-- The primary keys of the given aliases. -/
def aliasKeys (graph : JoinGraph) (aliases : AliasSet) : List (AliasId × String) :=
  aliases.toList.flatMap fun a =>
    ((graph.node? a).toList.flatMap (·.component.keyNames)).map fun key => (a, key)

/-- The columns that key the collections of the given aliases. -/
def indexColumns (graph : JoinGraph) (aliases : AliasSet) : List (AliasId × String) :=
  graph.nodes.filterMap fun n =>
    if n.id ∈ aliases then n.indexBy.map fun column => (n.id, column) else none

/-- The columns that have to be selected, in the order they are added. -/
def requiredFields (graph : JoinGraph) (c : ClauseSet) : List (AliasId × String) :=
  let hydrated := hydratedAliases graph c
  groupedKeys graph c.groupBy ++
    (if c.hasAggregates || !c.groupBy.isEmpty then [] else aliasKeys graph hydrated) ++
    indexColumns graph hydrated

/-- The select items for the required columns that `items` lacks, each of them once. -/
def missingFields (graph : JoinGraph) (items : List SelectItem) :
    List (AliasId × String) → List SelectItem
  | [] => []
  | (id, column) :: rest =>
    match (graph.node? id).bind (·.component.column? column) with
    | none => missingFields graph items rest
    | some c =>
      if items.any (·.isField id c.name) then missingFields graph items rest
      else
        let item := SelectItem.ofColumn id c true
        item :: missingFields graph (items ++ [item]) rest

/-- Where a field stands in the final order: by the position of its alias among the joins, and
the primary key first. -/
def fieldRank (graph : JoinGraph) (emitted : List AliasId) (f : SelectedField) : Nat × Nat :=
  let isKey := (graph.node? f.owner).any (·.component.isKey f.column)
  (emitted.idxOf f.owner, if isKey then 0 else 1)

/-- The order of ranks. -/
def rankLE (a b : Nat × Nat) : Bool := a.1 < b.1 || (a.1 == b.1 && a.2 ≤ b.2)

/-- The completed select list: fields in order of their ranks, then expressions. -/
def completeSelection (graph : JoinGraph) (emitted : List AliasId) (c : ClauseSet) : ClauseSet :=
  let items := c.select ++ missingFields graph c.select (requiredFields graph c)
  let rank := fieldRank graph emitted
  let fields := (items.filterMap (·.field?)).mergeSort fun f g => rankLE (rank f) (rank g)
  { c with select := fields.map .field ++ items.filter (·.field?.isNone) }

/-- The result column of a field: the name of its alias and the column, with a number from the
second occurrence on. -/
def fieldOutput (base : String) (earlier : List String) : String :=
  let n := earlier.count base + 1
  if n = 1 then base else base ++ "__" ++ toString n

/-- Names the result columns; `earlier` are the unnumbered names of the fields before. -/
def nameOutputsFrom (names : AliasNames) : List String → List SelectItem → List SelectItem
  | _, [] => []
  | earlier, .field f :: items =>
    let base := names.get f.owner ++ "__" ++ f.column
    .field { f with output := fieldOutput base earlier } ::
      nameOutputsFrom names (base :: earlier) items
  | earlier, item :: items => item :: nameOutputsFrom names earlier items

/-- The clauses with the result columns of the select list named. -/
def nameOutputs (names : AliasNames) (c : ClauseSet) : ClauseSet :=
  { c with select := nameOutputsFrom names [] c.select }

end ObjectQuery
