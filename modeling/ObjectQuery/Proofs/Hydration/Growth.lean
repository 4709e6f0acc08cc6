import ObjectQuery.Proofs.Hydration.Forest
import ObjectQuery.Proofs.Hydration.Grouping
import ObjectQuery.Proofs.Success

/-! # What rows grow

After any number of sightings the forest has a branch for each of their key paths, in order of first
occurrence below each holder (`Grown`). A sighting that is new adds a branch, one that is not changes
nothing, and a row is its sightings at the nodes of the plan, one after the other.

* `Grown.add`, `Grown.skip`: one sighting;
* `growFrom_grown`: one row;
* `Hydrator.pushAll_grown`: all rows. -/

namespace ObjectQuery

variable {p : HydrationPlan} {n : HydrationNode} {row : Row} {number i : Nat} {S : List Sighting}
  {forest forest' : List Branch} {path ρ : KeyPath} {s : Sighting} {new : Branch}

/-! ## Key paths along the nodes -/

/-- In a tree the root alone has no parent, and every other parent comes before its children. -/
theorem HydrationPlan.IsTree.parent_or (ht : p.IsTree) (hn : p.nodes[i]? = some n) :
    i = 0 ∧ n.parent = none ∨ ∃ j, j < i ∧ n.parent = some j := by
  by_cases hi : i = 0
  · obtain ⟨m, hm, hp⟩ := ht.root
    subst hi
    cases hm.symm.trans hn
    exact .inl ⟨rfl, hp⟩
  · exact .inr (ht.parent i n hn hi)

/-- A row has a key path at a node when it has one at the parent and an identity at the node. -/
theorem HydrationPlan.IsTree.keyPath_eq (ht : p.IsTree) (hn : p.nodes[i]? = some n) :
    p.keyPath row number i =
      (Branch.holder ((List.range i).map (p.keyPath row number)) n.parent).bind fun path =>
        (n.identity row number).toOption.join.map fun identity => path ++ [(i, identity)] := by
  rw [HydrationPlan.keyPath, hn]
  dsimp only
  rcases ht.parent_or hn with ⟨-, hp⟩ | ⟨j, hj, hp⟩
  · rw [hp]
    cases n.identity row number with
    | error e => rfl
    | ok identity? => cases identity? <;> rfl
  · have hholder : Branch.holder ((List.range i).map (p.keyPath row number)) (some j) =
        p.keyPath row number j := by
      simp [Branch.holder, hj]
    rw [hp, hholder]
    cases n.identity row number with
    | error e => cases p.keyPath row number j <;> rfl
    | ok identity? =>
      cases identity? with
      | none => cases p.keyPath row number j <;> rfl
      | some identity =>
        dsimp only
        rw [if_pos hj]
        exact Option.map_eq_bind

/-- The last step of a key path is at its node, and what is before it is the key path of the same
row at the parent. -/
theorem HydrationPlan.keyPath_spec (h : p.keyPath row number i = some path) :
    ∃ n π identity, p.nodes[i]? = some n ∧ path = π ++ [(i, identity)] ∧
      (n.parent = none ∧ π = [] ∨ ∃ j, n.parent = some j ∧ p.keyPath row number j = some π) := by
  rw [keyPath] at h
  split at h
  · cases h
  · rename_i n hn
    split at h
    · cases h
    · cases h
    · rename_i identity _
      split at h
      · rename_i hp
        cases h
        exact ⟨n, [], identity, hn, rfl, .inl ⟨hp, rfl⟩⟩
      · rename_i j hp
        split at h
        · obtain ⟨π, hπ, rfl⟩ := Option.map_eq_some_iff.1 h
          exact ⟨n, π, identity, hn, rfl, .inr ⟨j, hp, hπ⟩⟩
        · cases h

/-! ## Sightings -/

/-- What of a sighting is seen on its branch. -/
def HydrationPlan.label (p : HydrationPlan) (s : Sighting) : Branch.Label :=
  (s.step, p.nodes[s.step.1]?.bind (·.keyIn s.row),
    (p.nodes[s.step.1]?.map (·.dataOf s.row)).getD [])

/-- The first sightings of the records that the record with a key path holds. -/
def Sighting.heldBy (ss : List Sighting) (path : KeyPath) : List Sighting :=
  (firsts ss).filter fun s => s.holder = path

/-- The forest shows the first sightings, each below its holder, in order; the rows of these have
all columns of the records and of their keys. -/
structure Grown (p : HydrationPlan) (S : List Sighting) (forest : List Branch) : Prop where
  nonempty : ∀ s ∈ S, s.path ≠ []
  closed : ∀ s ∈ S, s.holder ∈ [] :: S.map (·.path)
  labels : ∀ path, Branch.labelsAt path forest =
    if path ∈ [] :: S.map (·.path) then some ((Sighting.heldBy S path).map p.label) else none
  read : ∀ s ∈ Sighting.firsts S, ∃ n values, p.nodes[s.step.1]? = some n ∧
    n.readAll s.row n.bindings = .ok values
  indexed : ∀ s ∈ Sighting.firsts S, ∀ n, p.nodes[s.step.1]? = some n → n.IndexedIn s.row

@[simp] theorem Sighting.step_mk (ρ : KeyPath) (step : Nat × List String) (row : Row) :
    Sighting.step ⟨ρ ++ [step], row⟩ = step := List.getLastD_concat

@[simp] theorem Sighting.holder_mk (ρ : KeyPath) (step : Nat × List String) (row : Row) :
    Sighting.holder ⟨ρ ++ [step], row⟩ = ρ := List.dropLast_concat

theorem Sighting.path_eq (h : s.path ≠ []) : s.path = s.holder ++ [s.step] := by
  rw [holder, step, List.getLastD_eq_getLast?, List.getLast?_eq_some_getLast h, Option.getD_some,
    List.dropLast_append_getLast]

theorem Grown.empty (p : HydrationPlan) : Grown p [] [] := by
  refine ⟨nofun, nofun, fun path => ?_, nofun, nofun⟩
  cases path with
  | nil => rfl
  | cons s path => rfl

/-- The key paths that have been seen after one more sighting. -/
theorem Sighting.mem_paths_concat : path ∈ [] :: (S ++ [s]).map (·.path) ↔
    path ∈ [] :: S.map (·.path) ∨ path = s.path := by
  simp only [List.map_append, List.map_singleton, List.mem_cons, List.mem_append,
    List.not_mem_nil, or_false, or_assoc]

theorem Sighting.firsts_concat_of_not_mem (hs : s.path ∉ S.map (·.path)) :
    firsts (S ++ [s]) = firsts S ++ [s] := by
  rw [firsts_concat, if_neg fun hp => hs ((mem_paths_firsts _).1 hp)]

/-- A record that was seen before. -/
theorem Grown.skip (h : Grown p S forest) (hs : s.path ∈ S.map (·.path)) :
    Grown p (S ++ [s]) forest := by
  have hfirsts : Sighting.firsts (S ++ [s]) = Sighting.firsts S := by
    rw [Sighting.firsts_concat, if_pos ((Sighting.mem_paths_firsts _).2 hs)]
  have hmem (path : KeyPath) :
      path ∈ [] :: (S ++ [s]).map (·.path) ↔ path ∈ [] :: S.map (·.path) := by
    rw [Sighting.mem_paths_concat, or_iff_left_iff_imp]
    rintro rfl
    exact List.mem_cons_of_mem _ hs
  obtain ⟨t, ht, hpath⟩ := List.mem_map.1 hs
  refine ⟨fun u hu => ?_, fun u hu => ?_, fun path => ?_, hfirsts ▸ h.read,
    hfirsts ▸ h.indexed⟩
  · rcases List.mem_append.1 hu with hu | hu
    · exact h.nonempty u hu
    · rw [List.mem_singleton.1 hu, ← hpath]
      exact h.nonempty t ht
  · rw [hmem]
    rcases List.mem_append.1 hu with hu | hu
    · exact h.closed u hu
    · rw [List.mem_singleton.1 hu, Sighting.holder, ← hpath]
      exact h.closed t ht
  · rw [h.labels, Sighting.heldBy, Sighting.heldBy, hfirsts]
    simp only [hmem]

/-- The new sighting alone is held by its holder. -/
theorem Sighting.heldBy_concat (hs : s.path ∉ S.map (·.path)) (path : KeyPath) :
    heldBy (S ++ [s]) path = heldBy S path ++ if s.holder = path then [s] else [] := by
  rw [heldBy, firsts_concat_of_not_mem hs, List.filter_append, heldBy]
  split
  · rename_i he
    rw [List.filter_cons_of_pos (by simpa using he), List.filter_nil]
  · rename_i he
    rw [List.filter_cons_of_neg (by simpa using he), List.filter_nil]

/-- Nothing is held by a record that was not seen. -/
theorem Grown.heldBy_eq_nil (h : Grown p S forest) (hp : path ∉ [] :: S.map (·.path)) :
    Sighting.heldBy S path = [] := by
  refine List.filter_eq_nil_iff.2 fun s hs hholder => hp ?_
  rw [← of_decide_eq_true hholder]
  exact h.closed s (Sighting.mem_of_mem_firsts hs)

/-- Branches with the labels of sightings have their steps. -/
theorem Branch.map_step_of_map_label {bs : List Branch} {ss : List Sighting}
    (h : bs.map Branch.label = ss.map p.label) : bs.map Branch.step = ss.map (·.step) := by
  have := congrArg (List.map Prod.fst) h
  rwa [List.map_map, List.map_map] at this

/-- Below the holder of a new record no branch has its step. -/
theorem Grown.step_not_mem (h : Grown p S forest) (hne : s.path ≠ [])
    (hs : s.path ∉ S.map (·.path)) {bs : List Branch}
    (hlabels : bs.map Branch.label = (Sighting.heldBy S s.holder).map p.label) :
    s.step ∉ bs.map Branch.step := by
  rw [Branch.map_step_of_map_label hlabels]
  intro hmem
  obtain ⟨t, ht, hstep⟩ := List.mem_map.1 hmem
  obtain ⟨ht, hholder⟩ := List.mem_filter.1 ht
  have htS := Sighting.mem_of_mem_firsts ht
  refine hs (List.mem_map.2 ⟨t, htS, ?_⟩)
  rw [Sighting.path_eq (h.nonempty t htS), of_decide_eq_true hholder, hstep, ← Sighting.path_eq hne]

/-- The labels when a record that is new is added below its holder. -/
theorem Grown.labels_insert (h : Grown p S forest) (hne : s.path ≠ [])
    (hholder : s.holder ∈ [] :: S.map (·.path)) (hs : s.path ∉ S.map (·.path))
    (hleaf : new.children = []) (hlabel : new.label = p.label s) (path : KeyPath) :
    Branch.labelsAt path (new.insert s.holder forest) =
      if path ∈ [] :: (S ++ [s]).map (·.path) then
        some ((Sighting.heldBy (S ++ [s]) path).map p.label) else none := by
  have hstep : new.step = s.step := congrArg Prod.fst hlabel
  obtain ⟨bs, hbs, hlabels⟩ : ∃ bs, Branch.childrenAt s.holder forest = some bs ∧
      bs.map Branch.label = (Sighting.heldBy S s.holder).map p.label := by
    have := h.labels s.holder
    rwa [if_pos hholder, Branch.labelsAt, Option.map_eq_some_iff] at this
  have hnew : new.step ∉ bs.map Branch.step := hstep ▸ h.step_not_mem hne hs hlabels
  rw [Branch.labelsAt_insert hbs hnew hleaf, hstep, ← Sighting.path_eq hne,
    Sighting.heldBy_concat hs]
  by_cases he : path = s.holder
  · subst he
    rw [if_pos rfl, if_pos (Sighting.mem_paths_concat.2 (.inl hholder)), if_pos rfl,
      List.map_append, hlabels, hlabel]
    rfl
  · rw [if_neg he, if_neg (Ne.symm he), List.append_nil]
    by_cases hend : path = s.path
    · have hunseen : path ∉ [] :: S.map (·.path) := by
        subst hend
        exact fun hmem => (List.mem_cons.1 hmem).elim hne hs
      rw [if_pos hend, if_pos (Sighting.mem_paths_concat.2 (.inr hend)), h.heldBy_eq_nil hunseen]
      rfl
    · rw [if_neg hend, h.labels]
      simp only [Sighting.mem_paths_concat, hend, or_false]

/-- A record that is new is added below its holder. -/
theorem Grown.add (h : Grown p S forest) (hne : s.path ≠ [])
    (hholder : s.holder ∈ [] :: S.map (·.path)) (hs : s.path ∉ S.map (·.path))
    (hleaf : new.children = []) (hlabel : new.label = p.label s) {values : List Value}
    (hn : p.nodes[s.step.1]? = some n) (hread : n.readAll s.row n.bindings = .ok values)
    (hindexed : n.IndexedIn s.row) : Grown p (S ++ [s]) (new.insert s.holder forest) := by
  have hfirsts := Sighting.firsts_concat_of_not_mem hs
  refine ⟨fun u hu => ?_, fun u hu => ?_, h.labels_insert hne hholder hs hleaf hlabel,
    fun u hu => ?_, fun u hu m hm => ?_⟩
  · rcases List.mem_append.1 hu with hu | hu
    · exact h.nonempty u hu
    · exact List.mem_singleton.1 hu ▸ hne
  · rw [Sighting.mem_paths_concat]
    rcases List.mem_append.1 hu with hu | hu
    · exact .inl (h.closed u hu)
    · exact .inl (List.mem_singleton.1 hu ▸ hholder)
  · rw [hfirsts] at hu
    rcases List.mem_append.1 hu with hu | hu
    · exact h.read u hu
    · exact List.mem_singleton.1 hu ▸ ⟨n, values, hn, hread⟩
  · rw [hfirsts] at hu
    rcases List.mem_append.1 hu with hu | hu
    · exact h.indexed u hu m hm
    · obtain rfl := List.mem_singleton.1 hu
      cases hn.symm.trans hm
      exact hindexed

/-! ## One row -/

/-- The records that a row shows at some nodes. -/
def HydrationPlan.shown (p : HydrationPlan) (row : Row) (number : Nat) (positions : List Nat) :
    List Sighting :=
  positions.filterMap fun i => (p.keyPath row number i).map fun path => ⟨path, row⟩

/-- A branch made from a row has the label of the sighting, and nothing below it. -/
theorem Branch.ofRow_spec {identity : List String} (ρ : KeyPath) (hn : p.nodes[i]? = some n)
    (hnew : Branch.ofRow n i identity row = .ok new) :
    new.children = [] ∧ (∃ values, n.readAll row n.bindings = .ok values) ∧ n.IndexedIn row ∧
      new.label = p.label ⟨ρ ++ [(i, identity)], row⟩ := by
  obtain ⟨hindexed, values, hvalues, rfl⟩ := eq_of_ofRow hnew
  refine ⟨rfl, ⟨values, hvalues⟩, hindexed, ?_⟩
  simp [Branch.label, HydrationPlan.label, Branch.step, hn, HydrationNode.dataOf, hvalues]

theorem Grown.existsAt_iff (h : Grown p S forest) (hne : path ≠ []) :
    Branch.existsAt path forest = true ↔ path ∈ S.map (·.path) := by
  rw [Branch.existsAt_eq, h.labels]
  split
  · rename_i hmem
    exact iff_of_true rfl ((List.mem_cons.1 hmem).resolve_left hne)
  · rename_i hmem
    exact iff_of_false (by simp) fun hp => hmem (List.mem_cons_of_mem _ hp)

/-- The node at `k`, when the row was read at the nodes before. -/
theorem growFrom_cons (ht : p.IsTree) {ns : List HydrationNode} {k : Nat}
    (hn : p.nodes[k]? = some n) (hS : Grown p S forest)
    (hseen : ∀ j < k, ∀ path, p.keyPath row number j = some path → path ∈ S.map (·.path))
    (h : Branch.growFrom row number k ((List.range k).map (p.keyPath row number)) (n :: ns) forest =
      (forest', none)) :
    ∃ grown, Grown p (S ++ p.shown row number [k]) grown ∧
      Branch.growFrom row number (k + 1) ((List.range (k + 1)).map (p.keyPath row number)) ns grown =
        (forest', none) := by
  have hkey : p.keyPath row number k = _ := ht.keyPath_eq hn
  have hcurrent : (List.range (k + 1)).map (p.keyPath row number) =
      (List.range k).map (p.keyPath row number) ++ [p.keyPath row number k] := by
    rw [List.range_succ, List.map_append, List.map_singleton]
  have hshown : p.shown row number [k] =
      ((p.keyPath row number k).map fun path => (⟨path, row⟩ : Sighting)).toList := by
    cases hk : p.keyPath row number k <;> simp [HydrationPlan.shown, hk]
  rw [hcurrent, hshown]
  rw [Branch.growFrom] at h
  split at h
  · rename_i hholder
    rw [hholder, Option.bind_none] at hkey
    rw [hkey]
    exact ⟨forest, by simpa using hS, h⟩
  · rename_i ρ hholder
    have hρ : ρ ∈ [] :: S.map (·.path) := by
      rcases ht.parent_or hn with ⟨-, hp⟩ | ⟨j, hj, hp⟩
      · rw [hp] at hholder
        cases hholder
        exact List.mem_cons_self
      · rw [hp, Branch.holder, List.getElem?_map, List.getElem?_range hj] at hholder
        exact List.mem_cons_of_mem _ (hseen j hj ρ hholder)
    rw [hholder, Option.bind_some] at hkey
    split at h
    · cases h
    · rename_i hidentity
      rw [hkey, hidentity]
      exact ⟨forest, by simpa [Except.toOption] using hS, h⟩
    · rename_i identity hidentity
      have hk : p.keyPath row number k = some (ρ ++ [(k, identity)]) := by
        rw [hkey, hidentity]; rfl
      have hne : ρ ++ [(k, identity)] ≠ [] := List.append_ne_nil_of_right_ne_nil _ (by simp)
      rw [hk, Option.map_some, Option.toList_some]
      dsimp only at h
      split at h
      · rename_i hold
        exact ⟨forest, hS.skip ((hS.existsAt_iff hne).1 hold), h⟩
      · rename_i hnew
        split at h
        · cases h
        · rename_i new hrow
          obtain ⟨hleaf, ⟨values, hread⟩, hindexed, hlabel⟩ := Branch.ofRow_spec ρ hn hrow
          have hadd := hS.add (s := ⟨ρ ++ [(k, identity)], row⟩) (n := n) hne
            (by rwa [Sighting.holder_mk]) (fun hmem => hnew ((hS.existsAt_iff hne).2 hmem)) hleaf
            hlabel (by rwa [Sighting.step_mk]) hread hindexed
          rw [Sighting.holder_mk] at hadd
          exact ⟨new.insert ρ forest, hadd, h⟩

/-- The nodes from `k` on, when the row was read at the nodes before. -/
theorem growFrom_grown (ht : p.IsTree) {ns : List HydrationNode} {k : Nat}
    (hns : p.nodes.drop k = ns) (hS : Grown p S forest)
    (hseen : ∀ j < k, ∀ path, p.keyPath row number j = some path → path ∈ S.map (·.path))
    (h : Branch.growFrom row number k ((List.range k).map (p.keyPath row number)) ns forest =
      (forest', none)) :
    Grown p (S ++ p.shown row number (List.range' k ns.length)) forest' := by
  induction ns generalizing k S forest with
  | nil =>
    cases h
    rwa [List.length_nil, List.range'_zero, HydrationPlan.shown, List.filterMap_nil, List.append_nil]
  | cons n ns ih =>
    have hn : p.nodes[k]? = some n := by
      rw [← List.head?_drop, hns]; rfl
    have hrest : p.nodes.drop (k + 1) = ns := by
      rw [← List.tail_drop, hns]; rfl
    obtain ⟨grown, hgrown, h⟩ := growFrom_cons ht hn hS hseen h
    have hshown : p.shown row number (List.range' k (n :: ns).length) =
        p.shown row number [k] ++ p.shown row number (List.range' (k + 1) ns.length) := by
      rw [List.length_cons, List.range'_succ]
      exact List.filterMap_append (l := [k])
    rw [hshown, ← List.append_assoc]
    refine ih hrest hgrown (fun j hj path hpath => ?_) h
    rw [List.map_append, List.mem_append]
    rcases Nat.lt_succ_iff_lt_or_eq.1 hj with hj | rfl
    · exact .inl (hseen j hj path hpath)
    · refine .inr (List.mem_map.2 ⟨⟨path, row⟩, ?_, rfl⟩)
      simp [HydrationPlan.shown, hpath]

/-! ## All rows -/

/-- The records that rows show, row by row; the first row has the number after `seen`. -/
def HydrationPlan.allShown (p : HydrationPlan) (rows : List Row) (seen : Nat) : List Sighting :=
  (rows.zipIdx (seen + 1)).flatMap fun r => p.shown r.1 r.2 (List.range p.nodes.length)

theorem Hydrator.pushAll_grown {hydrator hydrator' : Hydrator} {rows : List Row}
    (hp : hydrator.plan = p) (hm : hydrator.mode = .record) (ht : p.IsTree)
    (hS : Grown p S hydrator.forest)
    (h : hydrator.pushAll rows = .ok hydrator') :
    hydrator'.plan = p ∧ hydrator'.mode = .record ∧
      Grown p (S ++ p.allShown rows hydrator.rowsSeen) hydrator'.forest := by
  induction rows generalizing hydrator S with
  | nil =>
    cases h
    exact ⟨hp, hm, by rwa [HydrationPlan.allShown, List.zipIdx_nil, List.flatMap_nil, List.append_nil]⟩
  | cons row rows ih =>
    rw [Hydrator.pushAll] at h
    split at h
    · rename_i next hpush
      simp only [Hydrator.push, hm, hp] at hpush
      obtain ⟨rfl, herror⟩ := Prod.mk.inj hpush
      have hrow := growFrom_grown (k := 0) ht rfl hS (fun j hj => absurd hj (Nat.not_lt_zero j))
        (Prod.ext rfl herror)
      have hshown : p.allShown (row :: rows) hydrator.rowsSeen =
          p.shown row (hydrator.rowsSeen + 1) (List.range' 0 p.nodes.length) ++
            p.allShown rows (hydrator.rowsSeen + 1) := by
        rw [← List.range_eq_range', HydrationPlan.allShown, List.zipIdx_cons, List.flatMap_cons]; rfl
      rw [hshown, ← List.append_assoc]
      exact ih rfl rfl hrow h
    · cases h

end ObjectQuery
