import ObjectQuery.Proofs.Scope.Plan
import ObjectQuery.Proofs.Text.Names

/-! # Names of result columns

The name of a result column is glued together with `__`. The name of an occurrence has no `_` in
it, and neither has a number, so that the first and the last part can be told from the rest; what
stands between them may hold anything.

* `glued_inj`, `suffixed_inj`: the first and the last part of a glued name;
* `PlanNamed.column_inj`: the occurrence and the column;
* `map_name_items`: the names of a select list. -/

namespace ObjectQuery

variable {a b x y : String} {c : Char} {m n : Nat}

/-- A character that two texts have first at the end of `u` and `v` splits them there. -/
theorem append_cons_inj {s : Char} {t u v w : Text} (hu : s ∉ u) (hv : s ∉ v)
    (h : u ++ s :: t = v ++ s :: w) : u = v ∧ t = w := by
  induction u generalizing v with
  | nil =>
    cases v with
    | nil => exact ⟨rfl, List.tail_eq_of_cons_eq h⟩
    | cons d v =>
      obtain ⟨rfl, -⟩ := List.cons.inj h
      exact absurd List.mem_cons_self hv
  | cons d u ih =>
    cases v with
    | nil =>
      obtain ⟨rfl, -⟩ := List.cons.inj h
      exact absurd List.mem_cons_self hu
    | cons d' v =>
      obtain ⟨rfl, hrest⟩ := List.cons.inj h
      obtain ⟨rfl, rfl⟩ := ih (List.not_mem_of_not_mem_cons hu) (List.not_mem_of_not_mem_cons hv)
        hrest
      exact ⟨rfl, rfl⟩

theorem underscore_notMem_toString (n : Nat) : '_' ∉ (toString n).toList := fun h =>
  absurd (isDigit_of_mem_toString h) (by decide)

theorem underscore_notMem_numberedName (hc : c.isAlpha = true) :
    '_' ∉ (numberedName c n).toList := by
  rw [numberedName, String.toList_ofList]
  intro h
  rcases List.mem_cons.1 h with rfl | h
  · exact absurd hc (by decide)
  · split at h
    · cases h
    · exact underscore_notMem_toString n h

/-- A name has one letter only. -/
theorem numberedName_ne_group : numberedName c n ≠ "group" := by
  intro h
  have h := congrArg String.toList h
  rw [numberedName, String.toList_ofList] at h
  have h : (if n = 1 then [] else (toString n).toList) = ['r', 'o', 'u', 'p'] := (List.cons.inj h).2
  split at h
  · cases h
  · exact absurd (isDigit_of_mem_toString (h ▸ List.mem_cons_self : 'r' ∈ _)) (by decide)

theorem toList_glued (a x : String) : (a ++ "__" ++ x).toList = a.toList ++ '_' :: '_' :: x.toList := by
  rw [String.toList_append, String.toList_append, List.append_assoc]
  rfl

/-- A part without `_` at the start can be read off a glued name. -/
theorem glued_inj (ha : '_' ∉ a.toList) (hb : '_' ∉ b.toList)
    (h : a ++ "__" ++ x = b ++ "__" ++ y) : a = b ∧ x = y := by
  have h := congrArg String.toList h
  rw [toList_glued, toList_glued] at h
  obtain ⟨h1, h2⟩ := append_cons_inj ha hb h
  exact ⟨String.toList_injective h1, String.toList_injective (List.cons.inj h2).2⟩

/-- A number at the end can be read off a glued name. -/
theorem suffixed_inj (h : x ++ "__" ++ toString m = y ++ "__" ++ toString n) : x = y ∧ m = n := by
  -- from the end, the number is what stands before the first `_`
  have h := congrArg (fun s : String => s.toList.reverse) h
  simp only [toList_glued, List.reverse_append, List.reverse_cons, List.append_assoc,
    List.singleton_append] at h
  have hnot (k : Nat) : '_' ∉ (toString k).toList.reverse := fun hk =>
    underscore_notMem_toString k (List.mem_reverse.1 hk)
  obtain ⟨h1, h2⟩ := append_cons_inj (hnot m) (hnot n) h
  exact ⟨String.toList_injective (List.reverse_injective (List.cons.inj h2).2),
    toList_toString_inj (List.reverse_injective h1)⟩

theorem toString_ne_glued : toString n ≠ x ++ "__" ++ y := by
  intro h
  refine underscore_notMem_toString n ?_
  rw [h, toList_glued]
  exact List.mem_append_right _ List.mem_cons_self

theorem glued_ne_self : x ++ "__" ++ y ≠ x := by
  intro h
  have h := congrArg (fun s : String => s.toList.length) h
  simp only [toList_glued, List.length_append, List.length_cons] at h
  omega

/-! ## Names of a plan -/

namespace PlanNamed

variable {p : QueryPlan} {i j : AliasId} (h : PlanNamed n p)
include h

theorem numbered_get (hi : i < n) :
    ∃ c k, c.isAlpha = true ∧ p.aliases.get i = numberedName c k := by
  have hi : i < p.aliases.length := h.length_eq.symm ▸ hi
  rw [AliasNames.get_eq_getElem hi]
  exact h.numbered _ (List.getElem_mem hi)

theorem underscore_notMem_get (hi : i < n) : '_' ∉ (p.aliases.get i).toList := by
  obtain ⟨c, k, hc, he⟩ := h.numbered_get hi
  rw [he]
  exact underscore_notMem_numberedName hc

theorem get_inj (hi : i < n) (hj : j < n) (he : p.aliases.get i = p.aliases.get j) : i = j :=
  AliasNames.get_injective h.nodup (h.length_eq.symm ▸ hi) (h.length_eq.symm ▸ hj) he

/-- The occurrence and what follows it can be read off a glued name. -/
theorem column_inj (hi : i < n) (hj : j < n)
    (he : p.aliases.get i ++ "__" ++ x = p.aliases.get j ++ "__" ++ y) : i = j ∧ x = y := by
  obtain ⟨h1, h2⟩ := glued_inj (h.underscore_notMem_get hi) (h.underscore_notMem_get hj) he
  exact ⟨h.get_inj hi hj h1, h2⟩

end PlanNamed

namespace PlanOver

variable {env : Surroundings} {p : QueryPlan} {N : Nat} (h : PlanOver env N p)
include h

theorem owner_lt {i : SelectItem} (hi : i ∈ p.clauses.select) : i.owner < N := by
  have hover := h.clauses.select i hi
  apply h.ids
  cases i with
  | field f => exact hover
  | expression o k e name =>
    rw [SelectItem.owner, hover.1]
    exact JoinGraph.ownerOf_mem_aliases e

theorem lists_lt {o : AliasId} {k : Nat} (hk : p.clauses.Lists o k) : o < N := by
  obtain ⟨e, name, hi⟩ := hk
  exact h.owner_lt hi

end PlanOver

/-! ## Names of select lists -/

theorem toSelect_items {c : ClauseSet} {names : AliasNames} {hydrated : Bool} {source : Sql.Source}
    {js : List Sql.Join} {tests : List Sql.Conjunct} :
    (c.toSelect names hydrated source js tests).items = SelectItem.items names hydrated c.select := by
  cases c
  rfl

/-- The items of a select list that is hydrated bear the names of the result columns. -/
theorem map_name_items {names : AliasNames} (items : List SelectItem) :
    (SelectItem.items names true items).map (·.name) =
      items.map fun i => some (i.outputName names) := by
  induction items with
  | nil => rfl
  | cons i items ih =>
    cases i with
    | field => exact congrArg (List.cons _) ih
    | expression => exact congrArg (List.cons _) ih

end ObjectQuery
