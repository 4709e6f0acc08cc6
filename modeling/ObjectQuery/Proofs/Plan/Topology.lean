import ObjectQuery.Proofs.Plan.Emission

/-! # Joins whose dependencies go any way

The joins of a graph are written whatever they depend on. A list of kept aliases is `Emittable` when
every alias comes after those that its node awaits. `emit` goes from one such list to the next by
the first node that can be added, so that what it has made is the first of its length, and it stops
when no node can be added. That is the whole of what is kept unless some nodes await each other.

* `Awaits`, `Acyclic`, `Emittable`, `positions`: what an order has to satisfy, and which comes first;
* `exists_dependsOn`: a node depends on whatever aliases its condition reads;
* `takeReady_eq_some`, `takeReady_eq_none`: one step;
* `Greedy.snoc`, `exists_greedy`: what a step and a run keep;
* `emissionOrder_topological`: the order in which joins are written. -/

namespace ObjectQuery

namespace JoinGraph

variable {g : JoinGraph} {keep : AliasSet} {front l : List AliasId} {pending rest : List JoinNode}
  {n m : JoinNode} {a b : AliasId} {fuel : Nat}

/-! ## Orders -/

/-- The node of one alias is joined on another, and both are kept. -/
def Awaits (g : JoinGraph) (keep : AliasSet) (a b : AliasId) : Prop :=
  a ∈ keep ∧ b ∈ keep ∧ ∃ n ∈ g.nodes, n.id = a ∧ b ∈ n.dependsOn

/-- No kept node awaits itself, directly or by way of others. -/
def Acyclic (g : JoinGraph) (keep : AliasSet) : Prop :=
  ∀ a, ¬ Relation.TransGen (g.Awaits keep) a a

/-- Kept aliases in an order in which each comes after those that it awaits. -/
structure Emittable (g : JoinGraph) (keep : AliasSet) (l : List AliasId) : Prop where
  nodup : l.Nodup
  kept : ∀ a ∈ l, a ∈ keep
  after : ∀ pre a post, l = pre ++ a :: post → ∀ b, g.Awaits keep a b → b ∈ pre

/-- Where the aliases are declared. -/
def positions (g : JoinGraph) (l : List AliasId) : List Nat := l.map fun a => g.aliases.idxOf a

/-- Where two lists differ first, the first one has the alias that is declared earlier. -/
def Precedes (g : JoinGraph) (l m : List AliasId) : Prop :=
  List.Lex (· < ·) (g.positions l) (g.positions m)

/-- Any set of other aliases is what some node depends on, whatever else is known of the node. -/
theorem exists_dependsOn (use : TableUse) (s : AliasSet) (hp : ∀ a ∈ use.parent, a ∈ s)
    (hs : use.id ∉ s) : ∃ n : JoinNode, n.toTableUse = use ∧ ∀ a, a ∈ n.dependsOn ↔ a ∈ s := by
  refine ⟨⟨use, some ⟨s.toList.map fun a => .column a "", false⟩, none, []⟩, rfl, fun a => ?_⟩
  have hread : a ∈ Piece.readsAll (s.toList.map fun a => .column a "") ↔ a ∈ s := by
    rw [Piece.mem_readsAll, AliasSet.mem_def]
    simp [Piece.reads, AliasSet.mem_ofList]
  have hparent : a ∈ AliasSet.ofList use.parent.toList ↔ a ∈ use.parent := by
    rw [AliasSet.mem_ofList, Option.mem_toList, Option.mem_def]
  simp only [JoinNode.dependsOn, JoinCondition.readsWith, Expr.readsOption, Expr.reads_eq,
    Expr.readsAll, AliasSet.mem_erase, AliasSet.mem_union, hread, hparent, AliasSet.not_mem_empty,
    or_false]
  constructor
  · rintro ⟨ha | ha, -⟩
    exacts [hp a ha, ha]
  · exact fun ha => ⟨.inr ha, fun h => hs (h ▸ ha)⟩

theorem emittable_nil : g.Emittable keep [] :=
  ⟨.nil, by simp, by simp⟩

/-- An alias can be added when it is kept, is not there yet, and awaits nothing else. -/
theorem emittable_snoc : g.Emittable keep (l ++ [a]) ↔
    g.Emittable keep l ∧ a ∈ keep ∧ a ∉ l ∧ ∀ b, g.Awaits keep a b → b ∈ l := by
  constructor
  · intro h
    have hnodup := List.nodup_append.1 h.nodup
    refine ⟨⟨hnodup.1, fun b hb => h.kept b (by simp [hb]), ?_⟩, h.kept a (by simp), ?_, ?_⟩
    · rintro pre b post rfl c hc
      exact h.after pre b (post ++ [a]) (by simp) c hc
    · exact fun ha => hnodup.2.2 a ha a (by simp) rfl
    · exact fun b hb => h.after l a [] rfl b hb
  · rintro ⟨h, hkeep, hnew, hawaits⟩
    refine ⟨?_, ?_, ?_⟩
    · exact List.nodup_append.2 ⟨h.nodup, by simp, fun b hb c hc => by
        rintro rfl
        exact hnew (List.mem_singleton.1 hc ▸ hb)⟩
    · intro b hb
      rcases List.mem_append.1 hb with hb | hb
      · exact h.kept b hb
      · exact List.mem_singleton.1 hb ▸ hkeep
    · intro pre b post hsplit c hc
      rcases List.eq_nil_or_concat' post with rfl | ⟨post, d, rfl⟩
      · obtain ⟨rfl, hb⟩ := List.append_inj' hsplit rfl
        obtain rfl : a = b := by simpa using hb
        exact hawaits c hc
      · have hinit : l ++ [a] = (pre ++ b :: post) ++ [d] := by simpa using hsplit
        exact h.after pre b post (List.append_inj' hinit rfl).1 c hc

/-- Lists of one length are compared by what they begin with. -/
theorem lex_append {xs ys zs ws : List Nat} (h : List.Lex (· < ·) xs ys)
    (hlen : xs.length = ys.length) : List.Lex (· < ·) (xs ++ zs) (ys ++ ws) := by
  induction h with
  | nil => simp at hlen
  | rel h => exact .rel h
  | cons _ ih => exact .cons (ih (by simpa using hlen))

/-- The positions of the aliases of a graph go up. -/
theorem pairwise_idxOf (hnodup : g.aliases.Nodup) :
    g.aliases.Pairwise fun a b => g.aliases.idxOf a < g.aliases.idxOf b := by
  rw [List.pairwise_iff_getElem]
  intro i j hi hj hij
  rwa [hnodup.idxOf_getElem, hnodup.idxOf_getElem]

/-! ## One step -/

theorem isReady_iff : isReady keep front n = true ↔
    ∀ b ∈ n.dependsOn, b ∈ keep → b ∈ front := by
  simp only [isReady, List.all_eq_true, Bool.or_eq_true, List.contains_iff_mem, Bool.not_eq_true',
    decide_eq_false_iff_not, AliasSet.mem_def]
  exact forall₂_congr fun b _ => by tauto

theorem takeReady_eq_some (h : takeReady keep front pending = some (n, rest)) :
    ∃ pre post, pending = pre ++ n :: post ∧ rest = pre ++ post ∧ isReady keep front n = true ∧
      ∀ m ∈ pre, ¬ isReady keep front m = true := by
  induction pending generalizing rest with
  | nil => cases h
  | cons m pending ih =>
    rw [takeReady] at h
    split at h
    · rename_i hm
      cases h
      exact ⟨[], pending, rfl, rfl, hm, by simp⟩
    · rename_i hm
      obtain ⟨⟨k, rest'⟩, hr, he⟩ := Option.map_eq_some_iff.1 h
      cases he
      obtain ⟨pre, post, rfl, rfl, hn, hpre⟩ := ih hr
      refine ⟨m :: pre, post, rfl, rfl, hn, fun k hk => ?_⟩
      rcases List.mem_cons.1 hk with rfl | hk
      exacts [hm, hpre k hk]

theorem takeReady_eq_none (h : takeReady keep front pending = none) :
    ∀ m ∈ pending, ¬ isReady keep front m = true := by
  induction pending with
  | nil => simp
  | cons m pending ih =>
    rw [takeReady] at h
    split at h
    · cases h
    · rename_i hm
      intro k hk
      rcases List.mem_cons.1 hk with rfl | hk
      exacts [hm, ih (Option.map_eq_none_iff.1 h) k hk]

/-- The kept nodes that are still to be written, in the order they are declared. -/
def waiting (g : JoinGraph) (keep : AliasSet) (front : List AliasId) : List JoinNode :=
  g.nodes.filter fun n => decide (n.id ∈ keep) && !front.contains n.id

theorem mem_waiting : n ∈ g.waiting keep front ↔ n ∈ g.nodes ∧ n.id ∈ keep ∧ n.id ∉ front := by
  simp [waiting]

theorem waiting_nil : g.waiting keep [] = g.nodes.filter fun n => decide (n.id ∈ keep) := by
  simp [waiting]

theorem map_waiting : (g.waiting keep front).map (·.id) =
    g.aliases.filter fun a => decide (a ∈ keep) && !front.contains a := by
  rw [waiting, aliases, List.filter_map]
  rfl

/-- The nodes left when one of them is written. -/
theorem waiting_snoc {pre post : List JoinNode} (hnodup : g.aliases.Nodup)
    (h : g.waiting keep front = pre ++ n :: post) :
    g.waiting keep (front ++ [n.id]) = pre ++ post := by
  have hsub : ((g.waiting keep front).map (·.id)).Nodup :=
    hnodup.sublist (List.filter_sublist.map _)
  have hids : (g.waiting keep (front ++ [n.id])) =
      (g.waiting keep front).filter fun m => m.id != n.id := by
    rw [waiting, waiting, List.filter_filter]
    refine List.filter_congr fun m _ => ?_
    by_cases hm : m.id = n.id <;> simp [hm]
  rw [h, List.map_append, List.map_cons, List.nodup_append, List.nodup_cons] at hsub
  obtain ⟨-, ⟨hpost, -⟩, hpre⟩ := hsub
  have hother : ∀ m ∈ pre ++ post, m.id ≠ n.id := by
    intro m hm he
    rcases List.mem_append.1 hm with hm | hm
    · exact hpre m.id (List.mem_map_of_mem hm) n.id List.mem_cons_self he
    · exact hpost (he ▸ List.mem_map_of_mem hm)
  rw [hids, h, List.filter_append, List.filter_cons, if_neg (by simp), ← List.filter_append]
  exact List.filter_eq_self.2 fun m hm => by simpa using hother m hm

/-! ## A run -/

/-- A list as `emit` makes it: emittable, and before all others of its length. -/
structure Greedy (g : JoinGraph) (keep : AliasSet) (front : List AliasId) : Prop where
  emittable : g.Emittable keep front
  first : ∀ l, g.Emittable keep l → l.length = front.length → l = front ∨ g.Precedes front l

theorem greedy_nil : g.Greedy keep [] :=
  ⟨emittable_nil, fun _ _ hlen => .inl (List.length_eq_zero_iff.1 hlen)⟩

/-- What a node awaits is what it is joined on, as far as it is kept. -/
theorem awaits_iff (hnodup : g.aliases.Nodup) (hn : n ∈ g.nodes) (hk : n.id ∈ keep) :
    g.Awaits keep n.id b ↔ b ∈ keep ∧ b ∈ n.dependsOn := by
  constructor
  · rintro ⟨-, hb, m, hm, he, hr⟩
    have hsame := (node?_of_mem hnodup hm).symm.trans (he ▸ node?_of_mem hnodup hn)
    exact ⟨hb, Option.some_inj.1 hsame ▸ hr⟩
  · exact fun ⟨hb, hr⟩ => ⟨hk, hb, n, hn, rfl, hr⟩

/-- A node is ready just when it can be added. -/
theorem isReady_iff_awaits (hnodup : g.aliases.Nodup) (hn : n ∈ g.nodes) (hk : n.id ∈ keep) :
    isReady keep front n = true ↔ ∀ b, g.Awaits keep n.id b → b ∈ front := by
  simp only [isReady_iff, awaits_iff hnodup hn hk]
  exact forall_congr' fun b => by tauto

/-- An alias that can be added belongs to a waiting node that is ready. -/
theorem exists_ready (hnodup : g.aliases.Nodup) (hkeep : ∀ a ∈ keep, a ∈ g.aliases) (ha : a ∈ keep)
    (hnew : a ∉ front) (hawaits : ∀ b, g.Awaits keep a b → b ∈ front) :
    ∃ m ∈ g.waiting keep front, m.id = a ∧ isReady keep front m = true := by
  obtain ⟨m, hm, rfl⟩ := List.mem_map.1 (hkeep a ha)
  exact ⟨m, mem_waiting.2 ⟨hm, ha, hnew⟩, rfl, (isReady_iff_awaits hnodup hm ha).2 hawaits⟩

/-- Of two waiting nodes the one declared first has the lower position. -/
theorem idxOf_lt_of_waiting {pre post : List JoinNode} (hnodup : g.aliases.Nodup)
    (h : g.waiting keep front = pre ++ n :: post) (hm : m ∈ post) :
    g.aliases.idxOf n.id < g.aliases.idxOf m.id := by
  have hsub : ((g.waiting keep front).map (·.id)).Sublist g.aliases := List.filter_sublist.map _
  have hpair := (pairwise_idxOf hnodup).sublist hsub
  rw [h, List.pairwise_map] at hpair
  exact (List.pairwise_cons.1 (List.pairwise_append.1 hpair).2.1).1 m hm

/-- One step: the first ready node is the earliest that can be added. -/
theorem Greedy.snoc {pre post : List JoinNode} (h : g.Greedy keep front)
    (hnodup : g.aliases.Nodup) (hkeep : ∀ a ∈ keep, a ∈ g.aliases)
    (hw : g.waiting keep front = pre ++ n :: post) (hn : isReady keep front n = true)
    (hpre : ∀ m ∈ pre, ¬ isReady keep front m = true) : g.Greedy keep (front ++ [n.id]) := by
  obtain ⟨hmem, hk, hnew⟩ := mem_waiting.1 (show n ∈ g.waiting keep front by simp [hw])
  refine ⟨emittable_snoc.2 ⟨h.emittable, hk, hnew, (isReady_iff_awaits hnodup hmem hk).1 hn⟩, ?_⟩
  intro l hl hlen
  rcases List.eq_nil_or_concat' l with rfl | ⟨l, a, rfl⟩
  · simp at hlen
  obtain ⟨hl, ha, hal, hawaits⟩ := emittable_snoc.1 hl
  have hlen : l.length = front.length := by simpa using hlen
  rw [Precedes, positions, positions, List.map_append, List.map_append]
  rcases h.first l hl hlen with rfl | hlt
  · -- the node of the other alias is waiting and ready too, so it is not declared before
    obtain ⟨m, hm, rfl, hready⟩ := exists_ready hnodup hkeep ha hal hawaits
    rw [hw, List.mem_append, List.mem_cons] at hm
    rcases hm with hm | rfl | hm
    · exact absurd hready (hpre m hm)
    · exact .inl rfl
    · exact .inr (List.Lex.append_left _ (.rel (idxOf_lt_of_waiting hnodup hw hm)) _)
  · exact .inr (lex_append hlt (by simp [hlen]))

/-- A run goes on until nothing can be added, and writes what is left as it is declared. -/
theorem exists_greedy (hnodup : g.aliases.Nodup) (hkeep : ∀ a ∈ keep, a ∈ g.aliases)
    (h : g.Greedy keep front) (hfuel : (g.waiting keep front).length ≤ fuel) :
    ∃ last, g.Greedy keep last ∧ (∀ m ∈ g.waiting keep last, ¬ isReady keep last m = true) ∧
      emit keep fuel front (g.waiting keep front) = last ++ (g.waiting keep last).map (·.id) := by
  induction fuel generalizing front with
  | zero =>
    have hnone := List.length_eq_zero_iff.1 (Nat.le_zero.1 hfuel)
    exact ⟨front, h, by simp [hnone], rfl⟩
  | succ fuel ih =>
    rw [emit]
    split
    · rename_i n rest htake
      obtain ⟨pre, post, hw, rfl, hn, hpre⟩ := takeReady_eq_some htake
      rw [← waiting_snoc hnodup hw]
      refine ih (h.snoc hnodup hkeep hw hn hpre) ?_
      rw [waiting_snoc hnodup hw]
      rw [hw] at hfuel
      simp only [List.length_append, List.length_cons] at hfuel ⊢
      omega
    · rename_i htake
      exact ⟨front, h, takeReady_eq_none htake, rfl⟩

/-- When no waiting node is ready, no order gets further. -/
theorem Emittable.subset (hnodup : g.aliases.Nodup) (hkeep : ∀ a ∈ keep, a ∈ g.aliases)
    (hstuck : ∀ m ∈ g.waiting keep front, ¬ isReady keep front m = true) (h : g.Emittable keep l) :
    ∀ a ∈ l, a ∈ front := by
  induction l using List.reverseRecOn with
  | nil => simp
  | append_singleton l a ih =>
    obtain ⟨hl, ha, -, hawaits⟩ := emittable_snoc.1 h
    intro b hb
    rcases List.mem_append.1 hb with hb | hb
    · exact ih hl b hb
    · obtain rfl := List.mem_singleton.1 hb
      by_contra hnew
      obtain ⟨m, hm, -, hready⟩ := exists_ready hnodup hkeep ha hnew fun c hc => ih hl c (hawaits c hc)
      exact hstuck m hm hready

/-! ## Cycles -/

/-- There are no cycles when a number goes down from every alias to those that it awaits. -/
theorem acyclic_of_lt (f : AliasId → Nat) (h : ∀ a b, g.Awaits keep a b → f b < f a) :
    g.Acyclic keep := by
  intro a ha
  have hlt {b : AliasId} (hab : Relation.TransGen (g.Awaits keep) a b) : f b < f a := by
    induction hab with
    | single hab => exact h _ _ hab
    | tail _ hbc ih => exact (h _ _ hbc).trans ih
  exact Nat.lt_irrefl _ (hlt ha)

/-- In an emittable list of all kept aliases, none awaits itself. -/
theorem Emittable.acyclic (h : g.Emittable keep l) (hall : ∀ a ∈ keep, a ∈ l) :
    g.Acyclic keep := by
  refine acyclic_of_lt l.idxOf fun a b hab => ?_
  obtain ⟨pre, post, rfl⟩ := List.append_of_mem (hall a hab.1)
  have hb := h.after pre a post rfl b hab
  have ha : a ∉ pre := fun ha => (List.nodup_append.1 h.nodup).2.2 a ha a List.mem_cons_self rfl
  rw [List.idxOf_append_of_mem hb, List.idxOf_append_of_notMem ha]
  exact Nat.lt_add_right _ (List.idxOf_lt_length_of_mem hb)

/-- Kept aliases each of which awaits another of them are none, when there are no cycles. -/
theorem Acyclic.eq_nil (h : g.Acyclic keep) (hl : ∀ a ∈ l, ∃ b ∈ l, g.Awaits keep a b) : l = [] := by
  let R : {a // a ∈ l} → {a // a ∈ l} → Prop := fun b a => Relation.TransGen (g.Awaits keep) a b
  have : IsTrans _ R := ⟨fun _ _ _ hab hbc => hbc.trans hab⟩
  have : Std.Irrefl R := ⟨fun a ha => h a ha⟩
  have : Finite {a // a ∈ l} := List.finite_toSet l
  have hwf : WellFounded R := Finite.wellFounded_of_trans_of_irrefl R
  by_contra hne
  obtain ⟨a, ha⟩ := List.exists_mem_of_ne_nil l hne
  obtain ⟨⟨b, hb⟩, -, hmin⟩ := hwf.has_min Set.univ ⟨⟨a, ha⟩, trivial⟩
  obtain ⟨c, hc, hbc⟩ := hl b hb
  exact hmin ⟨c, hc⟩ trivial (.single hbc)

/-- Waiting nodes of which none is ready await each other. -/
theorem exists_awaits_waiting (hnodup : g.aliases.Nodup) (hkeep : ∀ a ∈ keep, a ∈ g.aliases)
    (hstuck : ∀ m ∈ g.waiting keep front, ¬ isReady keep front m = true)
    (ha : a ∈ (g.waiting keep front).map (·.id)) :
    ∃ b ∈ (g.waiting keep front).map (·.id), g.Awaits keep a b := by
  obtain ⟨m, hm, rfl⟩ := List.mem_map.1 ha
  obtain ⟨hmem, hk, -⟩ := mem_waiting.1 hm
  have hnot := hstuck m hm
  rw [isReady_iff_awaits hnodup hmem hk] at hnot
  push Not at hnot
  obtain ⟨b, hb, hnew⟩ := hnot
  obtain ⟨k, hk, rfl⟩ := List.mem_map.1 (hkeep b hb.2.1)
  exact ⟨k.id, List.mem_map_of_mem (mem_waiting.2 ⟨hk, hb.2.1, hnew⟩), hb⟩

/-- What `emit` has made when it stops, and what is left then. -/
theorem emissionOrder_spec (hnodup : g.aliases.Nodup) (hkeep : ∀ a ∈ keep, a ∈ g.aliases) :
    ∃ front, g.Greedy keep front ∧
      (∀ m ∈ g.waiting keep front, ¬ isReady keep front m = true) ∧
      g.emissionOrder keep = front ++ (g.waiting keep front).map (·.id) := by
  rw [emissionOrder, ← waiting_nil]
  exact exists_greedy hnodup hkeep greedy_nil le_rfl

/-- What is emitted and what is still waiting are together what is kept. -/
theorem mem_append_waiting (hkeep : ∀ a ∈ keep, a ∈ g.aliases) (h : g.Emittable keep front) :
    a ∈ front ++ (g.waiting keep front).map (·.id) ↔ a ∈ keep := by
  rw [List.mem_append, map_waiting, List.mem_filter]
  by_cases ha : a ∈ front
  · simp [ha, h.kept a ha]
  · simpa [ha] using hkeep a

theorem nodup_append_waiting (hnodup : g.aliases.Nodup) (h : g.Emittable keep front) :
    (front ++ (g.waiting keep front).map (·.id)).Nodup := by
  rw [map_waiting, List.nodup_append]
  refine ⟨h.nodup, hnodup.filter _, fun a ha b hb => ?_⟩
  rintro rfl
  simp [ha] at hb

end JoinGraph

namespace Sample

/-- A join of a graph of which only the dependencies matter. -/
def join (id : AliasId) (dependsOn : List AliasId) : JoinNode :=
  { id := id, userAlias := none, role := .target, parent := none, source := none, relation := none
    component := ⟨"User", "users", [], [], none, none⟩, kind := .inner, indexBy := none
    structural := some ⟨dependsOn.map fun a => .column a "id", false⟩, condition := none, extra := [] }

/-- The join that is declared first of two is joined on the other one, and on one elsewhere. -/
def forwardGraph : JoinGraph := ⟨join 0 [], [join 1 [0, 2, 9], join 2 [0], join 3 [0]]⟩

/-- Two joins are joined on each other, and one on the first of them. -/
def cyclicGraph : JoinGraph := ⟨join 0 [], [join 1 [2], join 2 [1], join 3 [1], join 4 [0]]⟩

end Sample

open JoinGraph in
/-- The joins of a graph are written in topological order, as stably as can be, for all
dependencies. Each kept alias is written once, and no other. Without cycles the order is emittable,
and it is the first one by what is declared first. With cycles it begins with the longest list that
is emittable, the first one of them, and what is left follows as it is declared. -/
theorem emissionOrder_topological {g : JoinGraph} {keep : AliasSet} (hnodup : g.aliases.Nodup)
    (hkeep : ∀ a ∈ keep, a ∈ g.aliases) :
    (g.emissionOrder keep).Nodup ∧ (∀ a, a ∈ g.emissionOrder keep ↔ a ∈ keep) ∧
    (g.Acyclic keep → g.Emittable keep (g.emissionOrder keep) ∧
      ∀ l, g.Emittable keep l → (∀ a ∈ keep, a ∈ l) →
        l = g.emissionOrder keep ∨ g.Precedes (g.emissionOrder keep) l) ∧
    (¬ g.Acyclic keep → ∃ front rest, g.emissionOrder keep = front ++ rest ∧ rest ≠ [] ∧
      rest = g.aliases.filter (fun a => decide (a ∈ keep) && !front.contains a) ∧
      (∀ a ∈ rest, ∃ b ∈ rest, g.Awaits keep a b) ∧ g.Emittable keep front ∧
      (∀ l, g.Emittable keep l → l ⊆ front ∧ l.length ≤ front.length ∧
        (l.length = front.length → l = front ∨ g.Precedes front l))) := by
  obtain ⟨front, hgreedy, hstuck, heq⟩ := emissionOrder_spec hnodup hkeep
  have hmem : ∀ a, a ∈ g.emissionOrder keep ↔ a ∈ keep := fun a => by
    rw [heq, mem_append_waiting hkeep hgreedy.emittable]
  have hnodup' : (g.emissionOrder keep).Nodup :=
    heq ▸ nodup_append_waiting hnodup hgreedy.emittable
  have hwaits : ∀ a ∈ (g.waiting keep front).map (·.id),
      ∃ b ∈ (g.waiting keep front).map (·.id), g.Awaits keep a b :=
    fun a => exists_awaits_waiting hnodup hkeep hstuck
  refine ⟨hnodup', hmem, fun hacyclic => ?_, fun hcyclic => ?_⟩
  · have hnone := hacyclic.eq_nil hwaits
    rw [hnone, List.append_nil] at heq
    rw [heq] at hmem ⊢
    refine ⟨hgreedy.emittable, fun l hl hall => hgreedy.first l hl ?_⟩
    have hperm : l.Perm front := (List.perm_ext_iff_of_nodup hl.nodup hgreedy.emittable.nodup).2
      fun a => ⟨fun ha => (hmem a).2 (hl.kept a ha), fun ha => hall a ((hmem a).1 ha)⟩
    exact hperm.length_eq
  · refine ⟨front, _, heq, fun hnone => hcyclic ?_, map_waiting, hwaits, hgreedy.emittable, ?_⟩
    · rw [hnone, List.append_nil] at heq
      exact hgreedy.emittable.acyclic fun a ha => heq ▸ (hmem a).2 ha
    · intro l hl
      have hsub := hl.subset hnodup hkeep hstuck
      exact ⟨hsub, (hl.nodup.subperm hsub).length_le, hgreedy.first l hl⟩

theorem emissionOrder_topological_forward :
    let g := Sample.forwardGraph
    let keep := AliasSet.ofList [0, 1, 2]
    g.aliases.Nodup ∧ (∀ a ∈ keep, a ∈ g.aliases) ∧ g.Acyclic keep ∧
      g.emissionOrder keep = [0, 2, 1] ∧ g.Emittable keep [0, 2, 1] ∧
      ∀ l, g.Emittable keep l → (∀ a ∈ keep, a ∈ l) → l = [0, 2, 1] ∨ g.Precedes [0, 2, 1] l := by
  intro g keep
  have hnodup : g.aliases.Nodup := by decide
  have hkeep : ∀ a ∈ keep, a ∈ g.aliases := by decide
  have horder : g.emissionOrder keep = [0, 2, 1] := by decide
  have hdown : ∀ n ∈ g.nodes, ∀ b ∈ keep, b ∈ n.dependsOn →
      [0, 2, 1].idxOf b < [0, 2, 1].idxOf n.id := by decide
  have hacyclic : g.Acyclic keep := by
    refine JoinGraph.acyclic_of_lt ([0, 2, 1] : List AliasId).idxOf fun a b hab => ?_
    obtain ⟨-, hb, n, hn, rfl, hr⟩ := hab
    exact hdown n hn b hb hr
  obtain ⟨hemittable, hfirst⟩ := (emissionOrder_topological hnodup hkeep).2.2.1 hacyclic
  rw [horder] at hemittable hfirst
  exact ⟨hnodup, hkeep, hacyclic, horder, hemittable, hfirst⟩

/-- Nodes that await each other are left to the end. -/
example : Sample.cyclicGraph.emissionOrder (AliasSet.ofList [0, 1, 2, 3, 4]) = [0, 4, 1, 2, 3] := by
  decide

end ObjectQuery
