import ObjectQuery.Hydration.Hydrator
import ObjectQuery.Proofs.Success

/-! # Rows that have every column

A row is reported only when it lacks a result column that the plan reads.

* `Hydrator.push_eq_ok`: one row;
* `HydrationPlan.hydrate_eq_ok`: all rows. -/

namespace ObjectQuery

variable {n : HydrationNode} {ns : List HydrationNode} {bs : List FieldBinding} {row : Row}
  {rows : List Row} {number : Nat}

namespace HydrationNode

/-- The result columns that are read at a node. -/
def outputs (n : HydrationNode) : List String :=
  (n.identifier ++ n.fields ++ n.aggregates).map (·.output) ++ n.indexBy.toList

/-- The row has the result columns that are read at the node. -/
def ReadsFrom (n : HydrationNode) (row : Row) : Prop :=
  ∀ output ∈ n.outputs, (row.get? output).isSome = true

theorem ReadsFrom.binding (h : n.ReadsFrom row) {b : FieldBinding}
    (hb : b ∈ n.identifier ++ n.fields ++ n.aggregates) : (row.get? b.output).isSome = true :=
  h _ (List.mem_append_left _ (List.mem_map_of_mem hb))

theorem readOutput_eq_ok {output : String} (h : (row.get? output).isSome = true) :
    ∃ v, n.readOutput row output = .ok v := by
  obtain ⟨v, hv⟩ := Option.isSome_iff_exists.1 h
  exact ⟨v, by rw [readOutput, hv]⟩

theorem readAll_eq_ok (h : ∀ b ∈ bs, (row.get? b.output).isSome = true) :
    ∃ values, n.readAll row bs = .ok values :=
  Except.exists_mapM_eq_ok fun b hb => readOutput_eq_ok (h b hb)

theorem ReadsFrom.identity (h : n.ReadsFrom row) (number : Nat) :
    ∃ identity, n.identity row number = .ok identity := by
  rw [HydrationNode.identity]
  split
  · obtain ⟨values, hvalues⟩ := readAll_eq_ok (n := n) fun b hb =>
      h.binding (List.mem_append_left _ (List.mem_append_right _ hb))
    rw [hvalues]
    simp only [bind, Except.bind]
    split <;> exact ⟨_, rfl⟩
  · obtain ⟨values, hvalues⟩ := readAll_eq_ok (n := n) fun b hb =>
      h.binding (List.mem_append_left _ (List.mem_append_left _ hb))
    rw [hvalues]
    simp only [bind, Except.bind]
    split <;> exact ⟨_, rfl⟩

/-- The fields and aggregates of a node. -/
theorem ReadsFrom.bindings (h : n.ReadsFrom row) :
    ∃ values, n.readAll row n.bindings = .ok values := by
  refine readAll_eq_ok fun b hb => h.binding ?_
  rw [List.append_assoc]
  exact List.mem_append_right _ hb

end HydrationNode

namespace Branch

theorem ofRow_eq_ok (h : n.ReadsFrom row) (position : Nat) (identity : List String) :
    ∃ b, ofRow n position identity row = .ok b := by
  obtain ⟨values, hvalues⟩ := h.bindings
  rw [ofRow, hvalues]
  cases hindex : n.indexBy with
  | none => exact ⟨_, rfl⟩
  | some output =>
    have hmem : output ∈ n.outputs := by
      refine List.mem_append_right _ ?_
      rw [hindex]
      exact List.mem_singleton_self output
    obtain ⟨v, hv⟩ := HydrationNode.readOutput_eq_ok (n := n) (h output hmem)
    simp only [hv]
    exact ⟨_, rfl⟩

/-- A row that has what is read at the nodes is not reported at any of them. -/
theorem growFrom_eq_none (h : ∀ n ∈ ns, n.ReadsFrom row) (position : Nat)
    (current : List (Option KeyPath)) (forest : List Branch) :
    (growFrom row number position current ns forest).2 = none := by
  induction ns generalizing position current forest with
  | nil => rfl
  | cons n ns ih =>
    obtain ⟨hn, h⟩ := List.forall_mem_cons.1 h
    obtain ⟨identity, hidentity⟩ := hn.identity number
    rw [growFrom]
    split
    · exact ih h _ _ _
    · simp only [hidentity]
      cases identity with
      | none => exact ih h _ _ _
      | some identity =>
        obtain ⟨b, hb⟩ := ofRow_eq_ok hn position identity
        simp only [hb]
        split <;> exact ih h _ _ _

end Branch

theorem flatRow_eq_ok {plan : HydrationPlan} (h : ∀ n ∈ plan.nodes, n.ReadsFrom row) :
    ∃ fields, flatRow plan row = .ok fields := by
  obtain ⟨pairs, hpairs⟩ : ∃ pairs, (plan.nodes.mapM fun n => do
      let values ← n.readAll row n.bindings
      return (n.bindings.map fun b => n.userAlias ++ "_" ++ b.key).zip values) =
        (.ok pairs : Except HydrationError _) := by
    refine Except.exists_mapM_eq_ok fun n hn => ?_
    obtain ⟨values, hvalues⟩ := (h n hn).bindings
    exact ⟨_, by rw [hvalues]; rfl⟩
  exact ⟨_, by rw [flatRow, hpairs]; rfl⟩

/-- A row that has what the plan reads is taken. -/
theorem Hydrator.push_eq_ok {hydrator : Hydrator}
    (h : ∀ n ∈ hydrator.plan.nodes, n.ReadsFrom row) :
    ∃ next, hydrator.push row = (next, none) ∧ next.plan = hydrator.plan := by
  obtain ⟨plan, mode, forest, flat, seen⟩ := hydrator
  obtain ⟨fields, hfields⟩ := flatRow_eq_ok h
  cases mode with
  | record | array => exact ⟨_, Prod.ext rfl (Branch.growFrom_eq_none h _ _ _), rfl⟩
  | scalar =>
    simp only [push, hfields]
    exact ⟨_, rfl, rfl⟩

theorem Hydrator.pushAll_eq_ok {hydrator : Hydrator}
    (h : ∀ row ∈ rows, ∀ n ∈ hydrator.plan.nodes, n.ReadsFrom row) :
    ∃ next, hydrator.pushAll rows = .ok next := by
  induction rows generalizing hydrator with
  | nil => exact ⟨hydrator, rfl⟩
  | cons row rows ih =>
    obtain ⟨hrow, h⟩ := List.forall_mem_cons.1 h
    obtain ⟨next, hpush, hplan⟩ := push_eq_ok hrow
    rw [pushAll, hpush]
    exact ih (hplan ▸ h)

/-- Rows that have what the plan reads are hydrated. -/
theorem HydrationPlan.hydrate_eq_ok {plan : HydrationPlan}
    (h : ∀ row ∈ rows, ∀ n ∈ plan.nodes, n.ReadsFrom row) (mode : HydrationMode) :
    ∃ result, hydrate plan mode rows = .ok result := by
  obtain ⟨next, hnext⟩ : ∃ next, (Hydrator.new plan mode).pushAll rows = .ok next :=
    Hydrator.pushAll_eq_ok h
  exact ⟨next.finish, by rw [hydrate, hnext]; rfl⟩

end ObjectQuery
