import ObjectQuery.Proofs.Resolve.Query

/-! # Select expressions are numbered

The expressions of a select list bear the numbers from zero on, in order, and what is added to the
list later does not change that. So an expression of a plan is told by its number alone.

* `resolveSelectItems_ordinals`: the items of a list, one after another;
* `plan_select`: the select list of a plan. -/

namespace ObjectQuery

open Resolve

variable {env : Surroundings} {subquery : ResolveSubquery} {graph : JoinGraph} {b b' : Bindings}
  {c : ClauseSet} {param ordinal : Nat} {items : List SelectItem}

namespace SelectItem

/-- The number of a select expression. -/
def ordinal? : SelectItem → Option Nat
  | field _ => none
  | expression _ ordinal _ _ => some ordinal

end SelectItem

/-- The numbers of the expressions of a select list. -/
def expressionOrdinals (items : List SelectItem) : List Nat := items.filterMap (·.ordinal?)

/-- The expressions of a select list are numbered from the given number on. -/
def NumberedFrom (ordinal : Nat) (items : List SelectItem) : Prop :=
  expressionOrdinals items = List.range' ordinal (expressionCount items)

theorem expressionOrdinals_append {items' : List SelectItem} :
    expressionOrdinals (items ++ items') = expressionOrdinals items ++ expressionOrdinals items' :=
  List.filterMap_append

theorem expressionOrdinals_fields (h : ∀ i ∈ items, i.field?.isSome = true) :
    expressionOrdinals items = [] := by
  refine List.filterMap_eq_nil_iff.2 fun i hi => ?_
  cases i with
  | field f => rfl
  | expression => exact absurd (h _ hi) Bool.false_ne_true

theorem numberedFrom_fields (h : ∀ i ∈ items, i.field?.isSome = true) :
    NumberedFrom ordinal items := by
  have hcount : expressionCount items = 0 := List.countP_eq_zero.2 fun i hi hnone => by
    have := h i hi
    rw [Option.isNone_iff_eq_none.1 hnone] at this
    cases this
  rw [NumberedFrom, expressionOrdinals_fields h, hcount, List.range'_zero]

theorem NumberedFrom.append {first rest : List SelectItem} (h : NumberedFrom ordinal first)
    (h' : NumberedFrom (ordinal + expressionCount first) rest) :
    NumberedFrom ordinal (first ++ rest) := by
  rw [NumberedFrom] at *
  rw [expressionOrdinals_append, h, h', expressionCount, expressionCount, expressionCount,
    List.countP_append, List.range'_append_1]

/-! ## Select lists -/

theorem isSome_field?_of_mem_ofColumns {id : AliasId} {columns : List Column} {implicit : Bool} :
    ∀ i ∈ columns.map fun x => SelectItem.ofColumn id x implicit, i.field?.isSome = true := by
  intro i hi
  obtain ⟨x, -, rfl⟩ := List.mem_map.1 hi
  rfl

theorem ColumnsOf.isSome_field? {t : Text} (h : ColumnsOf b graph t items) :
    ∀ i ∈ items, i.field?.isSome = true := by
  cases h with
  | all => exact isSome_field?_of_mem_ofColumns
  | qualified | ofRoot => exact List.forall_mem_singleton.2 rfl

theorem resolveSelectItems_ordinals {is : List Item}
    (h : (resolveSelectItems env subquery graph ordinal is).Runs b items b') :
    NumberedFrom ordinal items := by
  induction is generalizing ordinal items b with
  | nil =>
    obtain ⟨rfl, rfl⟩ := runs_pure.1 h
    rfl
  | cons i is ih =>
    obtain ⟨first, b₁, rest, h1, h2, rfl⟩ := runs_resolveSelectItems_cons h
    refine NumberedFrom.append ?_ (ih h2)
    obtain ⟨u, name, -, ⟨-, hcolumns⟩ | ⟨e, -, rfl⟩⟩ := runs_resolveSelectItem h1
    · exact numberedFrom_fields hcolumns.isSome_field?
    · rfl

theorem resolveSelect_ordinals {clause? : Option Segment}
    (h : (resolveSelect env subquery graph param clause?).Runs b items b') :
    NumberedFrom 0 items := by
  cases clause? with
  | none =>
    obtain ⟨rfl, rfl⟩ := runs_pure.1 h
    refine numberedFrom_fields fun i hi => ?_
    obtain ⟨n, -, hi⟩ := List.mem_flatMap.1 hi
    exact isSome_field?_of_mem_ofColumns i hi
  | some s =>
    obtain ⟨is, -, h⟩ := runs_resolveSelect_some h
    exact resolveSelectItems_ordinals h

theorem resolveClauses_ordinals {q : ClauseTexts}
    (h : (resolveClauses env subquery graph param q).Runs b c b') : NumberedFrom 0 c.select := by
  obtain ⟨_, -, -, -, h, -⟩ := runs_resolveClauses h
  exact resolveSelect_ordinals h

/-! ## Completed select lists -/

theorem missingFields_isSome_field? {required : List (AliasId × String)} :
    ∀ i ∈ missingFields graph items required, i.field?.isSome = true := by
  induction required generalizing items with
  | nil => exact nofun
  | cons r required ih =>
    simp only [missingFields]
    split
    · exact ih
    · split
      · exact ih
      · exact List.forall_mem_cons.2 ⟨rfl, ih⟩

/-- Completing a select list keeps its expressions in order. -/
theorem completeSelection_ordinals {emitted : List AliasId} :
    expressionOrdinals (completeSelection graph emitted c).select = expressionOrdinals c.select := by
  have hfields (fs : List SelectedField) : expressionOrdinals (fs.map .field) = [] :=
    expressionOrdinals_fields fun i hi => by
      obtain ⟨f, -, rfl⟩ := List.mem_map.1 hi
      rfl
  have hkept (is : List SelectItem) :
      expressionOrdinals (is.filter (·.field?.isNone)) = expressionOrdinals is := by
    rw [expressionOrdinals, expressionOrdinals, List.filterMap_filter]
    refine List.filterMap_congr fun i _ => ?_
    cases i <;> rfl
  simp only [completeSelection]
  rw [expressionOrdinals_append, hfields, hkept, List.nil_append, expressionOrdinals_append,
    expressionOrdinals_fields missingFields_isSome_field?, List.append_nil]

/-- The select list of a plan is a list with its result columns named, in which no two expressions
bear one number. -/
theorem plan_select {p : QueryPlan} {T : Text} (h : plan env T = .ok p) :
    ∃ c, p.clauses = nameOutputs p.aliases c ∧ (expressionOrdinals c.select).Nodup := by
  obtain ⟨q, -, h⟩ := Except.bind_eq_ok.1 h
  have hrun : (planQuery env q).Runs {} p ((planQuery env q).run {}).2 := Prod.ext h rfl
  obtain ⟨graph, c, c', b₁, emitted, h1, -, h2, rfl⟩ := runs_planQuery hrun
  refine ⟨_, rfl, ?_⟩
  obtain ⟨_, _, -, hrest⟩ := runs_bind.1 h1
  obtain ⟨_, _, h3, h4⟩ := runs_bind.1 hrest
  obtain ⟨⟨⟩, rfl⟩ := runs_pure.1 h4
  obtain ⟨_, _, -, h5⟩ := runs_bind.1 h2
  obtain ⟨rfl, rfl⟩ := runs_pure.1 h5
  rw [completeSelection_ordinals]
  exact resolveClauses_ordinals h3 ▸ List.nodup_range'

end ObjectQuery
