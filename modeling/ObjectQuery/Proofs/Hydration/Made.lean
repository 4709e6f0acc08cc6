import ObjectQuery.Proofs.Hydration.Forest
import ObjectQuery.Proofs.Hydration.Grouping
import ObjectQuery.Proofs.Hydration.Reading
import ObjectQuery.Proofs.Value.Fields

/-! # What results are made from

The values of a flat row, and those of a record, are the values of bindings in a row, put one after the
other under their keys. A branch keeps the values that it was made with: what is added later goes below
it, or beside it.

* `Row.pairs`: the values of bindings;
* `HydrationPlan.hydrate_scalar`: flat rows;
* `Hydrator.pushAll_made`: the branches of a forest, at any depth;
* `Hydrator.pushAll_roots`: those at the top. -/

namespace ObjectQuery

variable {plan : HydrationPlan} {n root : HydrationNode} {ns : List HydrationNode}
  {bs : List FieldBinding} {row : Row} {rows taken : List Row} {number position : Nat}
  {values : List Value} {identity : List String} {b new : Branch} {forest : List Branch}
  {path : KeyPath} {current : List (Option KeyPath)} {mode : HydrationMode}
  {hydrator hydrator' : Hydrator}

/-! ## Values of bindings -/

/-- The values of bindings in a row, under their keys. -/
def Row.pairs (row : Row) (bs : List FieldBinding) : Fields :=
  bs.filterMap fun b => (row.get? b.output).map fun v => (b.key, v)

theorem Row.names_pairs (h : ∀ b ∈ bs, (row.get? b.output).isSome = true) :
    (Row.pairs row bs).names = bs.map (·.key) := by
  induction bs with
  | nil => rfl
  | cons b bs ih =>
    obtain ⟨hb, h⟩ := List.forall_mem_cons.1 h
    obtain ⟨v, hv⟩ := Option.isSome_iff_exists.1 hb
    rw [Row.pairs, List.filterMap_cons, hv]
    exact congrArg (b.key :: ·) (ih h)

theorem HydrationNode.ReadsFrom.isSome_bindings (h : n.ReadsFrom row) :
    ∀ b ∈ n.bindings, (row.get? b.output).isSome = true := by
  intro b hb
  refine h.binding ?_
  rw [List.append_assoc]
  exact List.mem_append_right _ hb

theorem HydrationNode.get?_of_readOutput {output : String} {v : Value}
    (h : n.readOutput row output = .ok v) : row.get? output = some v := by
  rw [readOutput] at h
  split at h
  · cases h
    assumption
  · cases h

theorem HydrationNode.isSome_of_readAll (h : n.readAll row bs = .ok values) :
    ∀ b ∈ bs, (row.get? b.output).isSome = true := by
  have hall := Except.mapM_eq_ok.1 h
  clear h
  induction hall with
  | nil => exact nofun
  | cons hread _ ih => exact List.forall_mem_cons.2 ⟨by rw [get?_of_readOutput hread]; rfl, ih⟩

/-- What is read, under other keys. -/
theorem HydrationNode.zip_readAll (h : n.readAll row bs = .ok values) (key : FieldBinding → String) :
    (bs.map key).zip values = Row.pairs row (bs.map fun b => ⟨key b, b.output⟩) := by
  have hall := Except.mapM_eq_ok.1 h
  clear h
  induction hall with
  | nil => rfl
  | @cons b v bs values hread _ ih =>
    rw [List.map_cons, List.map_cons, Row.pairs, List.filterMap_cons, get?_of_readOutput hread,
      List.zip_cons_cons, ih]
    rfl

/-- The association list has the values of bindings in a row, put one after the other. -/
structure Row.Collects (row : Row) (bs : List FieldBinding) (fs : Fields) : Prop where
  read : ∀ b ∈ bs, (row.get? b.output).isSome = true
  eq : fs = Fields.ofPairs (row.pairs bs)

namespace Row.Collects

variable {fs : Fields} (h : Row.Collects row bs fs)
include h

theorem nodup_names : (Fields.names fs).Nodup := h.eq ▸ Fields.nodup_names_ofPairs _

theorem mem_names (k : String) : k ∈ Fields.names fs ↔ k ∈ bs.map (·.key) := by
  rw [h.eq, Fields.mem_names_ofPairs, names_pairs h.read]

/-- Of bindings with one key the last counts. -/
theorem get? (k : String) : Fields.get? fs k = Fields.get? (Row.pairs row bs).reverse k := by
  rw [h.eq, Fields.get?_ofPairs]

/-- Every binding has an entry of its own just when the keys are different. -/
theorem owns_iff : Fields.Owns fs (Row.pairs row bs) ↔ (bs.map (·.key)).Nodup := by
  rw [h.eq, Fields.owns_ofPairs, names_pairs h.read]

end Row.Collects

/-! ## Flat rows -/

/-- The bindings of all nodes, under the names that flat rows have for them. -/
def HydrationPlan.flatBindings (plan : HydrationPlan) : List FieldBinding :=
  plan.nodes.flatMap fun n => n.bindings.map fun b => ⟨n.userAlias ++ "_" ++ b.key, b.output⟩

theorem HydrationPlan.flatBindings_isSome (h : ∀ n ∈ plan.nodes, n.ReadsFrom row) :
    ∀ b ∈ plan.flatBindings, (row.get? b.output).isSome = true := by
  intro b hb
  obtain ⟨n, hn, hb⟩ := List.mem_flatMap.1 hb
  obtain ⟨b', hb', rfl⟩ := List.mem_map.1 hb
  exact (h n hn).isSome_bindings b' hb'

theorem flatRow_eq (h : ∀ n ∈ plan.nodes, n.ReadsFrom row) :
    flatRow plan row = .ok (Fields.ofPairs (Row.pairs row plan.flatBindings)) := by
  have hpairs : (plan.nodes.mapM fun n => do
      let values ← n.readAll row n.bindings
      return (n.bindings.map fun b => n.userAlias ++ "_" ++ b.key).zip values) =
        (.ok (plan.nodes.map fun n => Row.pairs row
          (n.bindings.map fun b => ⟨n.userAlias ++ "_" ++ b.key, b.output⟩)) :
            Except HydrationError _) := by
    rw [Except.mapM_eq_ok, List.forall₂_map_right_iff, List.forall₂_same]
    intro n hn
    obtain ⟨values, hvalues⟩ := (h n hn).bindings
    rw [hvalues, ← HydrationNode.zip_readAll hvalues]
    rfl
  rw [flatRow, hpairs, HydrationPlan.flatBindings, Row.pairs, List.filterMap_flatMap, List.flatMap]
  rfl

theorem Hydrator.pushAll_scalar (hydrator : Hydrator) (hmode : hydrator.mode = .scalar)
    (h : ∀ row ∈ rows, ∀ n ∈ hydrator.plan.nodes, n.ReadsFrom row) :
    ∃ next, hydrator.pushAll rows = .ok next ∧ next.mode = .scalar ∧ next.flat = hydrator.flat ++
      rows.map fun row => Fields.ofPairs (Row.pairs row hydrator.plan.flatBindings) := by
  induction rows generalizing hydrator with
  | nil => exact ⟨hydrator, rfl, hmode, (List.append_nil _).symm⟩
  | cons row rows ih =>
    obtain ⟨plan, mode, forest, flat, seen⟩ := hydrator
    cases hmode
    obtain ⟨hrow, h⟩ := List.forall_mem_cons.1 h
    obtain ⟨next, hnext, hmode, hflat⟩ :=
      ih ⟨plan, .scalar, forest, flat ++ [_], seen + 1⟩ rfl h
    refine ⟨next, ?_, hmode, hflat.trans (List.append_assoc _ _ _)⟩
    rw [pushAll, push]
    simp only [flatRow_eq hrow]
    exact hnext

/-- Every row becomes a flat row of the values of all bindings. -/
theorem HydrationPlan.hydrate_scalar (h : ∀ row ∈ rows, ∀ n ∈ plan.nodes, n.ReadsFrom row) :
    hydrate plan .scalar rows = .ok (.scalar (rows.map fun row =>
      Fields.ofPairs (Row.pairs row plan.flatBindings))) := by
  obtain ⟨next, hnext, hmode, hflat⟩ :=
    Hydrator.pushAll_scalar (.new plan .scalar) rfl h
  rw [hydrate, hnext]
  simp only [bind, Except.bind, pure, Except.pure, Hydrator.finish, hmode, hflat]
  rfl

/-! ## Branches -/

namespace Branch

/-- The branch stands in a forest, at any depth. -/
inductive Inside (b : Branch) : List Branch → Prop
  | here {forest : List Branch} (h : b ∈ forest) : Inside b forest
  | under {forest : List Branch} {c : Branch} (hc : c ∈ forest) (h : Inside b c.children) :
    Inside b forest

/-- A branch is made from one of the rows at its node, and has a key just when the records of the node
are keyed. -/
def MadeFrom (plan : HydrationPlan) (rows : List Row) (b : Branch) : Prop :=
  ∃ n, plan.nodes[b.node]? = some n ∧ b.key.isSome = n.indexBy.isSome ∧
    ∃ row ∈ rows, Row.Collects row n.bindings b.data

theorem MadeFrom.of_label_eq {b' : Branch} (h : MadeFrom plan rows b') (he : b.label = b'.label) :
    MadeFrom plan rows b := by
  obtain ⟨n, hn, hkey, row, hrow, hdata⟩ := h
  simp only [label, step, Prod.mk.injEq] at he
  obtain ⟨⟨hnode, -⟩, hkey', hdata'⟩ := he
  exact ⟨n, hnode ▸ hn, hkey' ▸ hkey, row, hrow, hdata' ▸ hdata⟩

theorem MadeFrom.mono (h : MadeFrom plan rows b) (hsub : rows ⊆ taken) : MadeFrom plan taken b := by
  obtain ⟨n, hn, hkey, row, hrow, hdata⟩ := h
  exact ⟨n, hn, hkey, row, hsub hrow, hdata⟩

/-- A new branch of a row. -/
theorem ofRow_values (h : ofRow n position identity row = .ok b) :
    b.step = (position, identity) ∧ b.key.isSome = n.indexBy.isSome ∧
      Row.Collects row n.bindings b.data ∧ b.children = [] := by
  obtain ⟨-, values, hvalues, rfl⟩ := eq_of_ofRow h
  refine ⟨rfl, Option.isSome_map, ⟨HydrationNode.isSome_of_readAll hvalues, ?_⟩, rfl⟩
  dsimp only
  rw [HydrationNode.zip_readAll hvalues]
  exact congrArg (fun bs => Fields.ofPairs (row.pairs bs)) (List.map_id _)

theorem ofRow_made (hn : plan.nodes[position]? = some n)
    (h : ofRow n position identity row = .ok b) : MadeFrom plan [row] b := by
  obtain ⟨hstep, hkey, hdata, -⟩ := ofRow_values h
  have hnode : b.node = position := congrArg Prod.fst hstep
  exact ⟨n, hnode ▸ hn, hkey, row, List.mem_singleton_self row, hdata⟩

/-- After a branch is added, all branches are labelled as before, except for the new one. -/
theorem inside_insert (hleaf : new.children = []) (h : Inside b (insert new path forest)) :
    b.label = new.label ∨ ∃ b', Inside b' forest ∧ b.label = b'.label := by
  induction path generalizing forest with
  | nil =>
    cases h with
    | here hb =>
      rcases List.mem_append.1 hb with hb | hb
      · exact .inr ⟨b, .here hb, rfl⟩
      · exact .inl (congrArg label (List.mem_singleton.1 hb))
    | under hc hb =>
      rcases List.mem_append.1 hc with hc | hc
      · exact .inr ⟨b, .under hc hb, rfl⟩
      · rw [List.mem_singleton.1 hc, hleaf] at hb
        cases hb with
        | here hb => cases hb
        | under hc => cases hc
  | cons s path ih =>
    rw [insert] at h
    cases h with
    | here hb =>
      obtain ⟨b', hb', rfl⟩ := List.mem_map.1 hb
      refine .inr ⟨b', .here hb', ?_⟩
      split <;> rfl
    | under hc hb =>
      obtain ⟨c', hc', rfl⟩ := List.mem_map.1 hc
      split at hb
      · refine (ih hb).imp_right ?_
        rintro ⟨b', hb', he⟩
        exact ⟨b', .under hc' hb', he⟩
      · exact .inr ⟨b, .under hc' hb, rfl⟩

theorem growFrom_made (hns : plan.nodes.drop position = ns) (hrow : row ∈ rows)
    (hmade : ∀ b, Inside b forest → MadeFrom plan rows b) :
    ∀ b, Inside b (growFrom row number position current ns forest).1 → MadeFrom plan rows b := by
  induction ns generalizing position current forest with
  | nil => exact hmade
  | cons n ns ih =>
    have hn : plan.nodes[position]? = some n := by
      rw [← List.head?_drop, hns]; rfl
    have hrest : plan.nodes.drop (position + 1) = ns := by
      rw [← List.tail_drop, hns]; rfl
    rw [growFrom]
    split
    · exact ih hrest hmade
    · split
      · exact hmade
      · exact ih hrest hmade
      · dsimp only
        split
        · exact ih hrest hmade
        · split
          · exact hmade
          · rename_i new hnew
            obtain ⟨-, -, -, hleaf⟩ := ofRow_values hnew
            refine ih hrest fun b hb => ?_
            rcases inside_insert hleaf hb with he | ⟨b', hb', he⟩
            · exact ((ofRow_made hn hnew).mono (List.cons_subset.2 ⟨hrow, List.nil_subset _⟩)).of_label_eq he
            · exact (hmade b' hb').of_label_eq he

/-! ## Branches at the top -/

/-- Nodes with a parent add nothing at the top. -/
theorem map_label_growFrom (hparent : ∀ n ∈ ns, n.parent.isSome = true)
    (hcurrent : ∀ path, some path ∈ current → path ≠ []) :
    (growFrom row number position current ns forest).1.map label = forest.map label := by
  induction ns generalizing position current forest with
  | nil => rfl
  | cons n ns ih =>
    obtain ⟨hn, hparent⟩ := List.forall_mem_cons.1 hparent
    have hskip : ∀ path, some path ∈ current ++ [none] → path ≠ [] := by
      intro path hpath
      rcases List.mem_append.1 hpath with hpath | hpath
      · exact hcurrent path hpath
      · cases List.mem_singleton.1 hpath
    rw [growFrom]
    split
    · exact ih hparent hskip
    · rename_i path hpath
      have hne : path ≠ [] := by
        obtain ⟨i, hi⟩ := Option.isSome_iff_exists.1 hn
        rw [hi, holder, Option.join_eq_some_iff] at hpath
        exact hcurrent path (List.mem_of_getElem? hpath)
      have hhere (identity : List String) :
          ∀ π, some π ∈ current ++ [some (path ++ [(position, identity)])] → π ≠ [] := by
        intro π hπ
        rcases List.mem_append.1 hπ with hπ | hπ
        · exact hcurrent π hπ
        · cases List.mem_singleton.1 hπ
          exact List.append_ne_nil_of_left_ne_nil hne _
      split
      · rfl
      · exact ih hparent hskip
      · rename_i identity _
        dsimp only
        split
        · exact ih hparent (hhere identity)
        · split
          · rfl
          · rename_i new hnew
            rw [ih hparent (hhere identity)]
            obtain ⟨s, π, rfl⟩ := List.exists_cons_of_ne_nil hne
            rw [insert, map_label_children]

theorem map_step (forest : List Branch) : forest.map step = (forest.map label).map (·.1) := by
  rw [List.map_map]
  rfl

theorem existsAt_singleton {s : Nat × List String} :
    existsAt [s] forest = true ↔ s ∈ forest.map step := by
  rw [existsAt, List.mem_map]
  split
  · rename_i b hb
    exact iff_of_true rfl ⟨b, List.mem_of_find?_eq_some hb, by simpa using List.find?_some hb⟩
  · rename_i hnone
    refine iff_of_false Bool.false_ne_true ?_
    rintro ⟨b, hb, hs⟩
    simpa [hs] using List.find?_eq_none.1 hnone b hb

/-- What a row adds at the top: the record of the root, when the row has one that is not there. -/
theorem map_step_growFrom (hroot : root.parent = none) (hparent : ∀ n ∈ ns, n.parent.isSome = true)
    (h : (growFrom row number 0 [] (root :: ns) forest).2 = none) : ∃ identity?,
      root.identity row number = .ok identity? ∧
        (growFrom row number 0 [] (root :: ns) forest).1.map step = forest.map step ++
          (identity?.toList.map fun identity => (0, identity)).filter (· ∉ forest.map step) := by
  have hrest (current : List (Option KeyPath)) (hcurrent : ∀ path, some path ∈ current → path ≠ [])
      (grown : List Branch) :
      (growFrom row number 1 current ns grown).1.map step = grown.map step := by
    rw [map_step, map_label_growFrom hparent hcurrent, ← map_step]
  rw [growFrom, hroot, holder] at h ⊢
  dsimp only at h ⊢
  cases hidentity : root.identity row number with
  | error e =>
    simp only [hidentity] at h
    cases h
  | ok identity? =>
    refine ⟨identity?, rfl, ?_⟩
    cases identity? with
    | none =>
      dsimp only
      rw [hrest _ (by simp), Option.toList_none, List.map_nil, List.filter_nil, List.append_nil]
    | some identity =>
      simp only [hidentity, List.nil_append] at h ⊢
      rw [Option.toList_some, List.map_singleton]
      split
      · rename_i hexists
        rw [hrest _ (by simp), List.filter_cons_of_neg (by simpa using existsAt_singleton.1 hexists),
          List.filter_nil, List.append_nil]
      · rename_i hexists
        rw [if_neg hexists] at h
        rw [existsAt_singleton] at hexists
        cases hnew : ofRow root 0 identity row with
        | error e =>
          simp only [hnew] at h
          cases h
        | ok new =>
          dsimp only
          rw [hrest _ (by simp), insert, List.map_append, List.map_singleton,
            List.filter_cons_of_pos (by simpa using hexists), List.filter_nil, (ofRow_values hnew).1]

end Branch

/-! ## All rows -/

theorem Hydrator.push_forest (hmode : hydrator.mode ≠ .scalar) : (hydrator.push row) =
    ({ hydrator with
        rowsSeen := hydrator.rowsSeen + 1
        forest := (Branch.growFrom row (hydrator.rowsSeen + 1) 0 [] hydrator.plan.nodes
          hydrator.forest).1 },
      (Branch.growFrom row (hydrator.rowsSeen + 1) 0 [] hydrator.plan.nodes hydrator.forest).2) := by
  obtain ⟨plan, mode, forest, flat, seen⟩ := hydrator
  cases mode with
  | scalar => exact absurd rfl hmode
  | record | array => rfl

/-- What holds before the first row and is kept by every row holds after the last. -/
theorem Hydrator.pushAll_induct (P : List Row → List Branch → Prop) (taken : List Row)
    (hydrator : Hydrator) (hmode : hydrator.mode ≠ .scalar) (hstart : P taken hydrator.forest)
    (hstep : ∀ row ∈ rows, ∀ taken forest number, P taken forest →
      (Branch.growFrom row number 0 [] hydrator.plan.nodes forest).2 = none →
        P (taken ++ [row]) (Branch.growFrom row number 0 [] hydrator.plan.nodes forest).1)
    (h : hydrator.pushAll rows = .ok hydrator') :
    hydrator'.plan = hydrator.plan ∧ hydrator'.mode = hydrator.mode ∧
      P (taken ++ rows) hydrator'.forest := by
  induction rows generalizing hydrator taken with
  | nil =>
    cases h
    exact ⟨rfl, rfl, (List.append_nil taken).symm ▸ hstart⟩
  | cons row rows ih =>
    rw [pushAll, push_forest hmode] at h
    split at h
    · rename_i next hpush
      obtain ⟨rfl, herror⟩ := Prod.mk.inj hpush
      obtain ⟨hrow, hstep⟩ := List.forall_mem_cons.1 hstep
      obtain ⟨hplan, hmode', hP⟩ := ih _ { hydrator with
        rowsSeen := hydrator.rowsSeen + 1
        forest := _ } hmode (hrow _ _ _ hstart herror) hstep h
      rw [List.append_assoc] at hP
      exact ⟨hplan, hmode', hP⟩
    · cases h

/-- All branches are made from rows. -/
theorem Hydrator.pushAll_made (hmode : mode ≠ .scalar)
    (h : (Hydrator.new plan mode).pushAll rows = .ok hydrator) :
    hydrator.plan = plan ∧ hydrator.mode = mode ∧
      ∀ b, Branch.Inside b hydrator.forest → Branch.MadeFrom plan rows b := by
  refine pushAll_induct
    (fun taken forest => ∀ b, Branch.Inside b forest → Branch.MadeFrom plan taken b)
    [] (.new plan mode) hmode (?_ : ∀ b, Branch.Inside b [] → Branch.MadeFrom plan [] b)
    (fun row _ taken forest number hmade _ => ?_) h
  · intro b hb
    cases hb with
    | here hb => cases hb
    | under hc => cases hc
  · exact Branch.growFrom_made rfl (List.mem_append_right _ (List.mem_singleton_self row))
      fun b hb => (hmade b hb).mono (List.subset_append_left _ _)

/-- In a tree all nodes after the root have a parent. -/
theorem HydrationPlan.IsTree.exists_root (ht : plan.IsTree) : ∃ root ns, plan.nodes = root :: ns ∧
    root.parent = none ∧ ∀ n ∈ ns, n.parent.isSome = true := by
  obtain ⟨root, hroot, hnone⟩ := ht.root
  obtain ⟨ns, hns⟩ := List.head?_eq_some_iff.1 (List.head?_eq_getElem?.trans hroot)
  refine ⟨root, ns, hns, hnone, fun n hn => ?_⟩
  obtain ⟨i, hi⟩ := List.mem_iff_getElem?.1 hn
  obtain ⟨j, -, hj⟩ := ht.parent (i + 1) n (by rw [hns, List.getElem?_cons_succ, hi]) i.succ_ne_zero
  rw [hj]
  rfl

/-- Branches at the top belong to the root. -/
theorem Hydrator.pushAll_roots (ht : plan.IsTree) (hmode : mode ≠ .scalar)
    (h : (Hydrator.new plan mode).pushAll rows = .ok hydrator) :
    ∀ b ∈ hydrator.forest, b.node = 0 := by
  obtain ⟨root, ns, hns, hroot, hparent⟩ := ht.exists_root
  refine (pushAll_induct (fun _ forest => ∀ b ∈ forest, b.node = 0) [] (.new plan mode) hmode
    nofun (fun row _ taken forest number htop herror b hb => ?_) h).2.2
  rw [show (Hydrator.new plan mode).plan.nodes = root :: ns from hns] at herror hb
  obtain ⟨identity?, -, hsteps⟩ := Branch.map_step_growFrom hroot hparent herror
  have hmem : b.step ∈ _ := List.mem_map_of_mem hb
  rw [hsteps] at hmem
  rcases List.mem_append.1 hmem with hmem | hmem
  · obtain ⟨b', hb', hstep⟩ := List.mem_map.1 hmem
    exact (congrArg Prod.fst hstep).symm.trans (htop b' hb')
  · obtain ⟨identity, -, hstep⟩ := List.mem_map.1 (List.mem_filter.1 hmem).1
    exact (congrArg Prod.fst hstep).symm

end ObjectQuery
