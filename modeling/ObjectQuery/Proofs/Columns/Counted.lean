import ObjectQuery.Proofs.Columns.Names
import ObjectQuery.Proofs.Scope.Limited

/-! # Columns of the statement that is counted

A grouped query is counted by its grouping expressions, each under a name of its own, and the select
expressions that `HAVING` refers to under theirs. A grouping expression that is a column is called by
its alias and its name, as the column would be in the select list, any other one by its position.

* `map_name_havingOutputs`, `map_name_groupItems`: the names of select lists;
* `PlanOver.nodup_groupNames`: when grouping expressions have different names;
* `PlanOver.groupName_eq_output`: a grouping expression that is called like a select expression. -/

namespace ObjectQuery

open Sql

variable {env : Surroundings} {p : QueryPlan} {names : AliasNames} {c : ClauseSet} {N o k : Nat}
  {e : Expr} {es : List Expr}

/-! ## References -/

theorem Expr.mem_outputs : (o, k) ∈ e.outputs ↔ .output o k ∈ e.pieces := by
  rw [outputs, List.mem_filterMap]
  constructor
  · rintro ⟨x, hx, he⟩
    cases x with
    | output => cases he; exact hx
    | text | column | placeholder | subquery | discriminator => cases he
  · exact fun h => ⟨_, h, rfl⟩

namespace ClauseSet

/-- The select expressions that `HAVING` refers to, each once. -/
def havingRefs (c : ClauseSet) : List (AliasId × Nat) :=
  (c.having.toList.flatMap (·.outputs)).eraseDups

theorem mem_havingRefs : (o, k) ∈ c.havingRefs ↔ ∃ e ∈ c.having, .output o k ∈ e.pieces := by
  simp only [havingRefs, List.mem_eraseDups, List.mem_flatMap, Option.mem_toList, Expr.mem_outputs,
    Option.mem_def]

/-- The columns that are grouped by. -/
def groupColumns (c : ClauseSet) : List (AliasId × String) := c.groupBy.filterMap (·.asColumn?)

end ClauseSet

theorem nodup_eraseDups {α : Type} [BEq α] [LawfulBEq α] (xs : List α) : xs.eraseDups.Nodup := by
  induction hn : xs.length using Nat.strong_induction_on generalizing xs with
  | h n ih =>
    cases xs with
    | nil => exact List.nodup_nil
    | cons x xs =>
      have hle := List.length_filter_le (fun y => !y == x) xs
      rw [List.eraseDups_cons, List.nodup_cons]
      refine ⟨fun hmem => ?_, ih _ (by rw [List.length_cons] at hn; omega) _ rfl⟩
      have := (List.mem_filter.1 (List.mem_eraseDups.1 hmem)).2
      simp at this

/-! ## Names of select lists -/

theorem map_name_havingOutputs (h : ∀ e ∈ c.having, ∀ o k, .output o k ∈ e.pieces → c.Lists o k) :
    (SelectItem.items names true c.havingOutputs).map (·.name) =
      c.havingRefs.map fun r => some (expressionOutput names r.1 r.2) := by
  have hrefs : ∀ r ∈ c.havingRefs, ∃ e name,
      c.expression? r.1 r.2 = some (.expression r.1 r.2 e name) := by
    rintro ⟨o, k⟩ hr
    obtain ⟨e, he, ho⟩ := ClauseSet.mem_havingRefs.1 hr
    exact ClauseSet.expression?_of_lists (h e he o k ho)
  rw [map_name_items]
  show (c.havingRefs.filterMap fun r => c.expression? r.1 r.2).map _ = _
  generalize c.havingRefs = refs at hrefs
  induction refs with
  | nil => rfl
  | cons r refs ih =>
    obtain ⟨⟨e, name, he⟩, hrefs⟩ := List.forall_mem_cons.1 hrefs
    rw [List.filterMap_cons, he, List.map_cons, List.map_cons, ← ih hrefs]
    rfl

theorem map_name_groupItems : (QueryPlan.groupItems names es).map (·.name) =
    es.zipIdx.map fun g => some (QueryPlan.groupName names g.2 g.1) := by
  rw [QueryPlan.groupItems, List.map_map]
  rfl

/-! ## Names of grouping expressions -/

/-- What a grouping expression is called by: a column, or its position. -/
def groupKey (g : Expr × Nat) : (AliasId × String) ⊕ Nat :=
  match g.1.asColumn? with
  | some r => .inl r
  | none => .inr g.2

/-- The name of a grouping expression. -/
def keyName (names : AliasNames) : (AliasId × String) ⊕ Nat → String
  | .inl r => names.get r.1 ++ "__" ++ r.2
  | .inr position => "group" ++ "__" ++ toString position

theorem groupName_eq (g : Expr × Nat) :
    QueryPlan.groupName names g.2 g.1 = keyName names (groupKey g) := by
  rw [QueryPlan.groupName, groupKey]
  cases g.1.asColumn? with
  | none => rfl
  | some r => rfl

theorem nodup_groupKeys {n : Nat} :
    ((es.zipIdx n).map groupKey).Nodup ↔ (es.filterMap (·.asColumn?)).Nodup := by
  have hinl (r : AliasId × String) (es : List Expr) (n : Nat) :
      .inl r ∈ (es.zipIdx n).map groupKey ↔ r ∈ es.filterMap (·.asColumn?) := by
    induction es generalizing n with
    | nil => simp
    | cons e es ih =>
      rw [List.zipIdx_cons, List.map_cons, List.mem_cons, ih, groupKey]
      cases he : e.asColumn? with
      | none => simp [he]
      | some s => simp [he, eq_comm]
  have hinr (m : Nat) (es : List Expr) (n : Nat) (h : .inr m ∈ (es.zipIdx n).map groupKey) :
      n ≤ m := by
    obtain ⟨⟨e, i⟩, hi, he⟩ := List.mem_map.1 h
    have hle := (List.mem_zipIdx hi).1
    rw [groupKey] at he
    split at he
    · cases he
    · cases he
      exact hle
  induction es generalizing n with
  | nil => simp
  | cons e es ih =>
    rw [List.zipIdx_cons, List.map_cons, groupKey]
    refine List.nodup_cons.trans ((and_congr_right' ih).trans ?_)
    cases he : e.asColumn? with
    | none =>
      rw [List.filterMap_cons_none he]
      -- the positions that are yet to come are higher
      refine and_iff_right fun hmem => ?_
      have := hinr n es (n + 1) hmem
      omega
    | some r => rw [List.filterMap_cons_some he, List.nodup_cons, hinl]

namespace PlanOver

variable (h : PlanOver env N p)
include h

theorem groupColumn_lt {r : AliasId × String} (hr : r ∈ p.clauses.groupColumns) : r.1 < N := by
  obtain ⟨e, he, hcolumn⟩ := List.mem_filterMap.1 hr
  have hlater : e ∈ p.asked.laterExprs := List.mem_append_left _ (List.mem_append_left _ he)
  exact h.ids _ ((h.clauses.later e hlater).reads (e.mem_reads_of_asColumn? hcolumn))

theorem having_lists : ∀ e ∈ p.clauses.having, ∀ o k, .output o k ∈ e.pieces →
    p.clauses.Lists o k := by
  intro e he o k ho
  have hlater : e ∈ p.asked.laterExprs :=
    List.mem_append_left _ (List.mem_append_right _ (Option.mem_toList.2 he))
  exact (h.clauses.later e hlater _ ho).2

theorem havingRef_lt {r : AliasId × Nat} (hr : r ∈ p.clauses.havingRefs) : r.1 < N := by
  obtain ⟨e, he, ho⟩ := ClauseSet.mem_havingRefs.1 hr
  exact h.lists_lt (h.having_lists e he _ _ ho)

theorem expressionOutput_inj {o' : AliasId} {k' : Nat} (ho : o < N) (ho' : o' < N)
    (he : expressionOutput p.aliases o k = expressionOutput p.aliases o' k') :
    (o, k) = (o', k') := by
  obtain ⟨rfl, hk⟩ := h.column_inj ho ho' he
  rw [toList_toString_inj (congrArg String.toList hk)]

theorem nodup_havingNames :
    (p.clauses.havingRefs.map fun r => expressionOutput p.aliases r.1 r.2).Nodup :=
  List.Nodup.map_on
    (fun _ hr _ hs he => h.expressionOutput_inj (h.havingRef_lt hr) (h.havingRef_lt hs) he)
    (nodup_eraseDups _)

/-- The name of no alias is the word that positions are called by. -/
theorem group_ne_column {a : AliasId} (ha : a < N) {x y : String} :
    "group" ++ "__" ++ x ≠ p.aliases.get a ++ "__" ++ y := by
  intro he
  obtain ⟨letter, n, -, hname⟩ := h.numbered_get ha
  have hgroup := (glued_inj (by decide) (h.underscore_notMem_get ha) he).1
  exact numberedName_ne_group (hname.symm.trans hgroup.symm)

theorem keyName_inj {x y : (AliasId × String) ⊕ Nat} (hx : ∀ r, x = .inl r → r.1 < N)
    (hy : ∀ r, y = .inl r → r.1 < N) (he : keyName p.aliases x = keyName p.aliases y) : x = y := by
  cases x with
  | inl r =>
    cases y with
    | inl s => exact congrArg _ (Prod.ext_iff.2 (h.column_inj (hx r rfl) (hy s rfl) he))
    | inr n => exact absurd he.symm (h.group_ne_column (hx r rfl))
  | inr m =>
    cases y with
    | inl s => exact absurd he (h.group_ne_column (hy s rfl))
    | inr n => exact congrArg _ (suffixed_inj he).2

theorem groupKey_lt {g : Expr × Nat} (hg : g.1 ∈ p.clauses.groupBy) {r : AliasId × String}
    (hr : groupKey g = .inl r) : r.1 < N := by
  rw [groupKey] at hr
  split at hr
  · rename_i hcolumn
    cases hr
    exact h.groupColumn_lt (List.mem_filterMap.2 ⟨g.1, hg, hcolumn⟩)
  · cases hr

/-- Grouping expressions have different names when no column is grouped by twice. -/
theorem nodup_groupNames :
    (p.clauses.groupBy.zipIdx.map fun g => QueryPlan.groupName p.aliases g.2 g.1).Nodup ↔
      p.clauses.groupColumns.Nodup := by
  have hnames : (p.clauses.groupBy.zipIdx.map fun g => QueryPlan.groupName p.aliases g.2 g.1) =
      (p.clauses.groupBy.zipIdx.map groupKey).map (keyName p.aliases) := by
    rw [List.map_map]
    exact List.map_congr_left fun g _ => groupName_eq g
  have hlt : ∀ x ∈ p.clauses.groupBy.zipIdx.map groupKey, ∀ r, x = .inl r → r.1 < N := by
    intro x hx r hr
    obtain ⟨g, hg, rfl⟩ := List.mem_map.1 hx
    exact h.groupKey_lt (List.mem_of_getElem? (List.mem_zipIdx_iff_getElem?.1 hg)) hr
  rw [hnames, ClauseSet.groupColumns, ← @nodup_groupKeys p.clauses.groupBy 0]
  refine ⟨List.Nodup.of_map _, List.Nodup.map_on fun x hx y hy he => ?_⟩
  exact h.keyName_inj (hlt x hx) (hlt y hy) he

/-- A grouping expression is called like a select expression when it is a column of the same alias
that is called by the number of the expression. -/
theorem groupName_eq_output {n : Nat} (he : e ∈ p.clauses.groupBy) (ho : o < N) :
    QueryPlan.groupName p.aliases n e = expressionOutput p.aliases o k ↔
      e.asColumn? = some (o, toString k) := by
  constructor
  · intro hname
    rw [groupName_eq (e, n)] at hname
    have hkey : groupKey (e, n) = .inl (o, toString k) := by
      refine h.keyName_inj (fun r => h.groupKey_lt he) ?_ hname
      rintro _ ⟨⟩
      exact ho
    rw [groupKey] at hkey
    split at hkey
    · rename_i hcolumn
      cases hkey
      exact hcolumn
    · cases hkey
  · intro hcolumn
    rw [QueryPlan.groupName, hcolumn]
    rfl

end PlanOver
end ObjectQuery
