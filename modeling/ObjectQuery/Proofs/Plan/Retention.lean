import Mathlib
import ObjectQuery.Plan.Graph

/-! # The joins that stay

The aliases retained by a graph are some of its own: those of every essential join, those that are
referenced, and with every alias the ones that its join reads. `grow` only adds aliases of the
graph, so that it cannot go on adding for longer than the graph has nodes, and `close` ends with a
set that `grow` leaves as it is.

* `mem_grow`, `grow_within`: what one pass adds;
* `Settles`, `exists_settles`: the passes as a loop without fuel, which the fuel suffices for;
* `retained_closed`, `mem_retained`, `retained_subset`: the retained aliases;
* `Suffices`, `retained_least`: they are the fewest that suffice. -/

namespace ObjectQuery

/-! ## Sizes -/

namespace AliasSet

variable {s t : AliasSet}

theorem nodup (s : AliasSet) : s.toList.Nodup := s.ascending.imp Nat.ne_of_lt

theorem size_le_of_subset {l : List AliasId} (h : ∀ a ∈ s, a ∈ l) : s.size ≤ l.length :=
  (s.nodup.subperm h).length_le

/-- A set that is no larger than a part of it has no other members. -/
theorem subset_of_size_le (h : ∀ a ∈ s, a ∈ t) (hsize : t.size ≤ s.size) : ∀ a ∈ t, a ∈ s := by
  intro a ha
  have hsub : s.toList.Subperm t.toList := s.nodup.subperm h
  exact (hsub.perm_of_length_le hsize).mem_iff.2 ha

/-- Sets are listed in ascending order, so that their members determine them. -/
theorem ext (h : ∀ a, a ∈ s ↔ a ∈ t) : s = t := by
  obtain ⟨l, hl⟩ := s
  obtain ⟨k, hk⟩ := t
  have hperm : l.Perm k := (List.perm_ext_iff_of_nodup (hl.imp Nat.ne_of_lt)
    (hk.imp Nat.ne_of_lt)).2 h
  have heq : l = k := hperm.eq_of_pairwise (fun _ _ _ _ hab hba => absurd hba hab.asymm) hl hk
  subst heq
  rfl

end AliasSet

namespace JoinGraph

variable {g : JoinGraph} {keep referenced : AliasSet} {n : JoinNode} {a : AliasId}

theorem contains_iff : g.contains a = true ↔ a ∈ g.aliases := List.contains_iff_mem

theorem size_le_nodes (h : ∀ a ∈ keep, a ∈ g.aliases) : keep.size ≤ g.nodes.length := by
  have hle := AliasSet.size_le_of_subset h
  rwa [aliases, List.length_map] at hle

/-- The set has, with every alias of the graph, the aliases of the graph that its join reads. -/
def Closed (g : JoinGraph) (keep : AliasSet) : Prop :=
  ∀ n ∈ g.nodes, n.id ∈ keep → ∀ a ∈ n.dependsOn, a ∈ g.aliases → a ∈ keep

/-! ## One pass -/

/-- One step of a pass: the dependencies of a node that is kept. -/
def visit (g : JoinGraph) (keep : AliasSet) (n : JoinNode) : AliasSet :=
  if n.id ∈ keep then keep ∪ g.innerDependencies n else keep

theorem mem_visit : a ∈ g.visit keep n ↔
    a ∈ keep ∨ n.id ∈ keep ∧ a ∈ n.dependsOn ∧ a ∈ g.aliases := by
  rw [visit]
  split
  · rename_i hn
    simp only [innerDependencies, AliasSet.mem_union, AliasSet.mem_filter, contains_iff, hn,
      true_and]
  · rename_i hn
    simp only [hn, false_and, or_false]

theorem mem_visits {ns : List JoinNode} (h : a ∈ keep) : a ∈ ns.foldl g.visit keep := by
  induction ns generalizing keep with
  | nil => exact h
  | cons n ns ih => exact ih (mem_visit.2 (.inl h))

theorem mem_visits_of_reads {ns : List JoinNode} (hn : n ∈ ns) (hk : n.id ∈ keep)
    (ha : a ∈ n.dependsOn) (hg : a ∈ g.aliases) : a ∈ ns.foldl g.visit keep := by
  induction ns generalizing keep with
  | nil => cases hn
  | cons m ns ih =>
    rcases List.mem_cons.1 hn with rfl | hn
    · rw [List.foldl_cons]
      exact mem_visits (mem_visit.2 (.inr ⟨hk, ha, hg⟩))
    · exact ih hn (mem_visit.2 (.inl hk))

/-- A pass over nodes stays within what their reads do not lead out of. -/
theorem visits_within {P : AliasId → Prop} {ns : List JoinNode}
    (hP : ∀ n ∈ ns, P n.id → ∀ a ∈ n.dependsOn, a ∈ g.aliases → P a) (h : ∀ a ∈ keep, P a) :
    ∀ a ∈ ns.foldl g.visit keep, P a := by
  induction ns generalizing keep with
  | nil => exact h
  | cons n ns ih =>
    refine ih (fun m hm => hP m (List.mem_cons_of_mem _ hm)) fun a ha => ?_
    rcases mem_visit.1 ha with ha | ⟨hk, hd, hg⟩
    · exact h a ha
    · exact hP n List.mem_cons_self (h _ hk) a hd hg

theorem mem_grow (h : a ∈ keep) : a ∈ g.grow keep := mem_visits h

theorem grow_within {bound : AliasSet} (hbound : g.Closed bound) (h : ∀ a ∈ keep, a ∈ bound) :
    ∀ a ∈ g.grow keep, a ∈ bound :=
  visits_within hbound h

theorem grow_subset (h : ∀ a ∈ keep, a ∈ g.aliases) : ∀ a ∈ g.grow keep, a ∈ g.aliases :=
  visits_within (fun _ _ _ _ _ hg => hg) h

theorem closed_of_size_grow (h : (g.grow keep).size = keep.size) : g.Closed keep :=
  fun _ hn hk a ha hg => AliasSet.subset_of_size_le (fun _ => mem_grow) h.le a
    (mem_visits_of_reads hn hk ha hg)

theorem size_lt_grow (h : (g.grow keep).size ≠ keep.size) : keep.size < (g.grow keep).size := by
  refine Nat.lt_of_le_of_ne ?_ (Ne.symm h)
  exact AliasSet.size_le_of_subset fun a ha => mem_grow ha

/-! ## All passes -/

theorem mem_close {fuel : Nat} (h : a ∈ keep) : a ∈ g.close fuel keep := by
  induction fuel generalizing keep with
  | zero => exact h
  | succ fuel ih =>
    simp only [close]
    split
    · exact h
    · exact ih (mem_grow h)

theorem close_subset {fuel : Nat} (h : ∀ a ∈ keep, a ∈ g.aliases) :
    ∀ a ∈ g.close fuel keep, a ∈ g.aliases := by
  induction fuel generalizing keep with
  | zero => exact h
  | succ fuel ih =>
    simp only [close]
    split
    · exact h
    · exact ih (grow_subset h)

theorem close_within {bound : AliasSet} {fuel : Nat} (hbound : g.Closed bound)
    (h : ∀ a ∈ keep, a ∈ bound) : ∀ a ∈ g.close fuel keep, a ∈ bound := by
  induction fuel generalizing keep with
  | zero => exact h
  | succ fuel ih =>
    simp only [close]
    split
    · exact h
    · exact ih (grow_within hbound h)

/-- The passes from `keep` on, without a limit: that many of them add something, and the one after
them adds nothing to the last set. -/
inductive Settles (g : JoinGraph) : Nat → AliasSet → AliasSet → Prop
  | stop {keep : AliasSet} : (g.grow keep).size = keep.size → Settles g 0 keep keep
  | pass {rounds : Nat} {keep last : AliasSet} : (g.grow keep).size ≠ keep.size →
      Settles g rounds (g.grow keep) last → Settles g (rounds + 1) keep last

theorem Settles.closed {rounds : Nat} {last : AliasSet} (h : g.Settles rounds keep last) :
    g.Closed last := by
  induction h with
  | stop hsize => exact closed_of_size_grow hsize
  | pass _ _ ih => exact ih

/-- Every pass that adds something brings the set closer to all aliases of the graph, so that the
passes come to their end before the fuel does. -/
theorem exists_settles {fuel : Nat} (h : ∀ a ∈ keep, a ∈ g.aliases)
    (hfuel : g.nodes.length < keep.size + fuel) :
    ∃ rounds, rounds + keep.size ≤ g.nodes.length ∧
      g.Settles rounds keep (g.close fuel keep) := by
  have hle := size_le_nodes h
  induction fuel generalizing keep with
  | zero => omega
  | succ fuel ih =>
    simp only [close]
    split
    · rename_i hsize
      exact ⟨0, by omega, .stop hsize⟩
    · rename_i hsize
      have hlt := size_lt_grow hsize
      obtain ⟨rounds, hrounds, hs⟩ := ih (grow_subset h) (by omega) (size_le_nodes (grow_subset h))
      exact ⟨rounds + 1, by omega, .pass hsize hs⟩

/-! ## The retained aliases -/

/-- The aliases that stay for their own sake. -/
def seeds (g : JoinGraph) (referenced : AliasSet) : AliasSet :=
  AliasSet.ofList
    ((g.nodes.filter fun n => isEssential n || decide (n.id ∈ referenced)).map (·.id))

theorem mem_seeds : a ∈ g.seeds referenced ↔
    ∃ n ∈ g.nodes, (isEssential n = true ∨ n.id ∈ referenced) ∧ n.id = a := by
  simp only [seeds, AliasSet.mem_ofList, List.mem_map, List.mem_filter, Bool.or_eq_true,
    decide_eq_true_eq, and_assoc]

theorem seeds_subset : ∀ a ∈ g.seeds referenced, a ∈ g.aliases := by
  intro a ha
  obtain ⟨n, hn, -, rfl⟩ := mem_seeds.1 ha
  exact List.mem_map_of_mem hn

theorem retained_subset : ∀ a ∈ g.retained referenced, a ∈ g.aliases :=
  close_subset seeds_subset

/-- The loop that `retained` runs. -/
theorem retained_settles (g : JoinGraph) (referenced : AliasSet) : ∃ rounds,
    rounds + (g.seeds referenced).size ≤ g.nodes.length ∧
    g.Settles rounds (g.seeds referenced) (g.retained referenced) :=
  exists_settles seeds_subset (by omega)

theorem retained_closed : g.Closed (g.retained referenced) := by
  obtain ⟨_, -, hs⟩ := retained_settles g referenced
  exact hs.closed

theorem mem_retained (hn : n ∈ g.nodes) (h : isEssential n = true ∨ n.id ∈ referenced) :
    n.id ∈ g.retained referenced :=
  mem_close (mem_seeds.2 ⟨n, hn, h, rfl⟩)

/-- A join that does not stay is a left join. -/
theorem kind_of_not_retained (hn : n ∈ g.nodes) (h : n.id ∉ g.retained referenced) :
    n.kind = .left := by
  cases hk : n.kind with
  | left => rfl
  | inner => exact absurd (mem_retained hn (.inl (by simp [isEssential, hk]))) h

/-! ## The fewest that suffice -/

/-- What a statement that reads the aliases `referenced` has to keep, as a condition on sets of
aliases of the graph. -/
structure Suffices (g : JoinGraph) (referenced keep : AliasSet) : Prop where
  own : ∀ a ∈ keep, a ∈ g.aliases
  root : ∀ n ∈ g.nodes, n.role = .root → n.id ∈ keep
  inner : ∀ n ∈ g.nodes, n.kind = .inner → n.id ∈ keep
  referenced : ∀ a ∈ referenced, a ∈ g.aliases → a ∈ keep
  closed : g.Closed keep

theorem isEssential_iff : isEssential n = true ↔ n.role = .root ∨ n.kind = .inner := by
  rw [isEssential, Bool.or_eq_true, beq_iff_eq, beq_iff_eq]

theorem suffices_retained : g.Suffices referenced (g.retained referenced) where
  own := fun _ => retained_subset _
  root := fun _ hn hroot => mem_retained hn (.inl (isEssential_iff.2 (.inl hroot)))
  inner := fun _ hn hinner => mem_retained hn (.inl (isEssential_iff.2 (.inr hinner)))
  referenced := by
    intro a ha hg
    obtain ⟨n, hn, rfl⟩ := List.mem_map.1 hg
    exact mem_retained hn (.inr ha)
  closed := retained_closed

/-- A set that suffices has the seeds, and the passes do not lead out of it. -/
theorem Suffices.retained_subset (h : g.Suffices referenced keep) :
    ∀ a ∈ g.retained referenced, a ∈ keep := by
  refine close_within h.closed fun a ha => ?_
  obtain ⟨n, hn, hwhy, rfl⟩ := mem_seeds.1 ha
  rcases hwhy with hessential | href
  · rcases isEssential_iff.1 hessential with hroot | hinner
    · exact h.root n hn hroot
    · exact h.inner n hn hinner
  · exact h.referenced n.id href (List.mem_map_of_mem hn)

/-- What suffices for more references suffices for fewer. -/
theorem Suffices.anti {more : AliasSet} (h : g.Suffices more keep)
    (hsub : ∀ a ∈ referenced, a ∈ more) : g.Suffices referenced keep :=
  { h with referenced := fun a ha => h.referenced a (hsub a ha) }

/-- What suffices goes on to suffice when it is referenced itself. -/
theorem Suffices.union_self (h : g.Suffices referenced keep) :
    g.Suffices (referenced ∪ keep) keep :=
  { h with
    referenced := fun a ha hg => (AliasSet.mem_union.1 ha).elim (fun ha => h.referenced a ha hg) id }

/-- The retained aliases are the least set that suffices, found in no more passes that add
something than the graph has nodes. They grow with the references, and referencing them as well
changes nothing. -/
theorem retained_least (g : JoinGraph) (referenced : AliasSet) :
    g.Suffices referenced (g.retained referenced) ∧
    (∀ keep, g.Suffices referenced keep → ∀ a ∈ g.retained referenced, a ∈ keep) ∧
    (∃ rounds ≤ g.nodes.length,
      g.Settles rounds (g.seeds referenced) (g.retained referenced)) ∧
    (∀ more : AliasSet, (∀ a ∈ referenced, a ∈ more) →
      ∀ a ∈ g.retained referenced, a ∈ g.retained more) ∧
    g.retained (referenced ∪ g.retained referenced) = g.retained referenced := by
  have hmono : ∀ more : AliasSet, (∀ a ∈ referenced, a ∈ more) →
      ∀ a ∈ g.retained referenced, a ∈ g.retained more :=
    fun _ hsub => (suffices_retained.anti hsub).retained_subset
  refine ⟨suffices_retained, fun _ h => h.retained_subset, ?_, hmono, ?_⟩
  · obtain ⟨rounds, hrounds, hs⟩ := retained_settles g referenced
    exact ⟨rounds, by omega, hs⟩
  · refine AliasSet.ext fun a => ⟨?_, ?_⟩
    · exact suffices_retained.union_self.retained_subset a
    · exact hmono _ (fun _ h => AliasSet.mem_union.2 (.inl h)) a

end JoinGraph
end ObjectQuery
