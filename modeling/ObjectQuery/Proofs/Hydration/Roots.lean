import ObjectQuery.Proofs.Hydration.Objects
import ObjectQuery.Proofs.Hydration.Records
import ObjectQuery.Proofs.Value.Rendering

/-! # The number of roots

A row makes a record of the root when no row before it has the same key. As values are told apart by
their texts, there are as many records as there are different keys.

* `HydrationNode.keyOf`: the key of a row;
* `KeyedBy`: the records of the root have the keys of the rows, which every row keeps up;
* `HydrationPlan.IsTree.size_records`: their number. -/

namespace ObjectQuery

variable {plan : HydrationPlan} {n root : HydrationNode} {ns : List HydrationNode} {row : Row}
  {rows : List Row} {number : Nat} {identity? : Option (List String)} {entries : List Entry}
  {forest : List Branch} {c : Collection} {hydrator : Hydrator} {mode : HydrationMode}

/-! ## Distinct elements -/

theorem length_dedup_eq {α : Type} [DecidableEq α] {xs ys : List α} (h : ∀ x, x ∈ xs ↔ x ∈ ys) :
    xs.dedup.length = ys.dedup.length := by
  refine List.Perm.length_eq ((List.perm_ext_iff_of_nodup xs.nodup_dedup ys.nodup_dedup).2 fun x => ?_)
  rw [List.mem_dedup, List.mem_dedup, h]

/-- Functions that tell the same elements apart have equally many values. -/
theorem length_dedup_map_eq {α β γ : Type} [DecidableEq β] [DecidableEq γ] {f : α → β} {g : α → γ}
    {xs : List α} (h : ∀ x ∈ xs, ∀ y ∈ xs, f x = f y ↔ g x = g y) :
    (xs.map f).dedup.length = (xs.map g).dedup.length := by
  induction xs with
  | nil => rfl
  | cons x xs ih =>
    have hrest := ih fun y hy z hz => h y (List.mem_cons_of_mem x hy) z (List.mem_cons_of_mem x hz)
    have hmem : f x ∈ xs.map f ↔ g x ∈ xs.map g := by
      simp only [List.mem_map]
      exact exists_congr fun y => and_congr_right fun hy =>
        h y (List.mem_cons_of_mem x hy) x List.mem_cons_self
    rw [List.map_cons, List.map_cons]
    by_cases hx : f x ∈ xs.map f
    · rw [List.dedup_cons_of_mem hx, List.dedup_cons_of_mem (hmem.1 hx), hrest]
    · rw [List.dedup_cons_of_notMem hx, List.dedup_cons_of_notMem (mt hmem.2 hx), List.length_cons,
        List.length_cons, hrest]

/-! ## Keys of rows -/

namespace HydrationNode

/-- What a row has in the columns that tell the records of the node apart. -/
def keyOf (n : HydrationNode) (row : Row) : List (Option Value) :=
  n.identifier.map fun b => row.get? b.output

/-- The texts of these values. -/
def keyText (n : HydrationNode) (row : Row) : List String :=
  n.identifier.map fun b => ((row.get? b.output).getD .null).render

/-- The row has the whole key, and not only nulls in it. -/
def HasKey (n : HydrationNode) (row : Row) : Prop :=
  ∃ values : List Value, n.keyOf row = values.map some ∧ ∃ v ∈ values, v.isNull = false

theorem readAll_of_keyOf {values : List Value} (h : n.keyOf row = values.map some) :
    n.readAll row n.identifier = .ok values := by
  have hread : List.Forall₂ (fun b v => row.get? b.output = some v) n.identifier values := by
    rwa [← List.forall₂_eq_eq_eq, keyOf, List.forall₂_map_left_iff, List.forall₂_map_right_iff] at h
  refine Except.mapM_eq_ok.2 (hread.imp fun b v hv => ?_)
  rw [readOutput, hv]

theorem keyText_eq {values : List Value} (h : n.keyOf row = values.map some) :
    n.keyText row = values.map Value.render := by
  have htext : n.keyText row = (n.keyOf row).map fun v? => (v?.getD .null).render := by
    rw [keyOf, List.map_map]
    rfl
  rw [htext, h, List.map_map]
  rfl

theorem HasKey.identity (h : n.HasKey row) (number : Nat) :
    n.identity row number = .ok (some (n.keyText row)) := by
  obtain ⟨values, hvalues, v, hv, hnull⟩ := h
  have hne : n.identifier.isEmpty = false := by
    rw [List.isEmpty_eq_false_iff]
    intro hnil
    rw [keyOf, hnil, List.map_nil] at hvalues
    rw [List.map_eq_nil_iff.1 hvalues.symm] at hv
    cases hv
  have hall : values.all Value.isNull = false := by
    rw [List.all_eq_false]
    exact ⟨v, hv, by rw [hnull]; exact Bool.false_ne_true⟩
  rw [HydrationNode.identity, hne, readAll_of_keyOf hvalues, keyText_eq hvalues]
  simp [bind, Except.bind, hall, pure, Except.pure]

/-- Keys are the same when their texts are. -/
theorem HasKey.keyText_eq_iff {row' : Row} (h : n.HasKey row) (h' : n.HasKey row') :
    n.keyText row = n.keyText row' ↔ n.keyOf row = n.keyOf row' := by
  obtain ⟨values, hvalues, -⟩ := h
  obtain ⟨values', hvalues', -⟩ := h'
  rw [keyText_eq hvalues, keyText_eq hvalues', hvalues, hvalues',
    (List.map_injective_iff.2 Value.render_injective).eq_iff,
    (List.map_injective_iff.2 (Option.some_injective _)).eq_iff]

end HydrationNode

/-! ## Roots -/

/-- The records of the root have the keys of the rows, each once. -/
def KeyedBy (root : HydrationNode) (taken : List Row) (forest : List Branch) : Prop :=
  (forest.map Branch.step).Nodup ∧
    ∀ s, s ∈ forest.map Branch.step ↔ s ∈ (taken.map root.keyText).map (0, ·)

theorem KeyedBy.growFrom (h : KeyedBy root rows forest) (htop : root.parent = none)
    (hparent : ∀ n ∈ ns, n.parent.isSome = true) (hkey : root.HasKey row)
    (herror : (Branch.growFrom row number 0 [] (root :: ns) forest).2 = none) :
    KeyedBy root (rows ++ [row]) (Branch.growFrom row number 0 [] (root :: ns) forest).1 := by
  obtain ⟨hnodup, hmem⟩ := h
  obtain ⟨identity?, hidentity, hsteps⟩ := Branch.map_step_growFrom htop hparent herror
  rw [hkey.identity] at hidentity
  cases hidentity
  rw [KeyedBy, hsteps, Option.toList_some, List.map_singleton]
  constructor
  · refine hnodup.append ((List.nodup_singleton _).filter _) ?_
    exact fun s hs hnew => by simpa [hs] using (List.mem_filter.1 hnew).2
  · intro s
    rw [List.mem_append, List.mem_filter, List.mem_singleton, decide_eq_true_iff, List.map_append,
      List.map_append, List.mem_append, ← hmem, List.map_singleton, List.map_singleton,
      List.mem_singleton]
    tauto

theorem KeyedBy.perm (h : KeyedBy root rows forest) :
    (forest.map Branch.step).Perm ((rows.map root.keyText).dedup.map (0, ·)) := by
  refine (List.perm_ext_iff_of_nodup h.1 ?_).2 fun s => ?_
  · exact (List.nodup_dedup _).map (Prod.mk_right_injective 0)
  · rw [h.2, List.mem_map, List.mem_map]
    simp only [List.mem_dedup]

theorem Hydrator.pushAll_keys (ht : plan.IsTree) (hroot : plan.root? = some root)
    (hkey : ∀ row ∈ rows, root.HasKey row) (hmode : mode ≠ .scalar)
    (h : (Hydrator.new plan mode).pushAll rows = .ok hydrator) :
    KeyedBy root rows hydrator.forest := by
  obtain ⟨root', ns, hns, htop, hparent⟩ := ht.exists_root
  obtain rfl : root' = root := by
    rw [HydrationPlan.root?, hns] at hroot
    exact Option.some.inj hroot
  refine (pushAll_induct (KeyedBy root') [] (.new plan mode) hmode ⟨List.nodup_nil, fun s => .rfl⟩
    (fun row hrow taken forest number htaken herror => ?_) h).2.2
  rw [show (Hydrator.new plan mode).plan.nodes = root' :: ns from hns] at herror ⊢
  exact htaken.growFrom htop hparent (hkey row hrow) herror

theorem Branch.length_entries (bs : List Branch) : (Branch.entries plan bs).length = bs.length := by
  induction bs with
  | nil => rfl
  | cons b bs ih => rw [Branch.entries, List.length_cons, List.length_cons, ih]

/-- There are as many records of the root as there are keys among the rows. -/
theorem HydrationPlan.IsTree.size_records (ht : plan.IsTree) (hroot : plan.root? = some root)
    (hindex : root.indexBy = none) (hkey : ∀ row ∈ rows, root.HasKey row)
    (h : hydrate plan .record rows = .ok (.records c)) :
    c.size = (rows.map root.keyOf).dedup.length := by
  obtain ⟨next, hnext, -, rfl⟩ := exists_of_hydrate_records h
  obtain ⟨-, -, hmade⟩ := Hydrator.pushAll_made (by decide) hnext
  have htop := Hydrator.pushAll_roots ht (by decide) hnext
  have hunkeyed : ∀ e ∈ Branch.entries plan next.forest, e.key = none := by
    intro e he
    obtain ⟨b, hb, rfl⟩ := Branch.mem_entries he
    obtain ⟨n, hn, hkey, -⟩ := hmade b (.here hb)
    rw [htop b hb, ← List.head?_eq_getElem?] at hn
    cases hroot.symm.trans hn
    rw [hindex, Option.isSome_none] at hkey
    rw [Branch.entry_eq_recordAt]
    exact Option.isNone_iff_eq_none.1 (Option.isSome_eq_false_iff.1 hkey)
  have hforest := (Hydrator.pushAll_keys ht hroot hkey (by decide) hnext).perm.length_eq
  rw [List.length_map, List.length_map] at hforest
  rw [rootCollection, hroot, Collection.size]
  dsimp only
  rw [Collection.ofEntries_eq hindex _ hunkeyed, List.length_map, Branch.length_entries, hforest]
  exact length_dedup_map_eq fun row hrow row' hrow' =>
    (hkey row hrow).keyText_eq_iff (hkey row' hrow')

end ObjectQuery
