import ObjectQuery.Proofs.Compiler.Placeholders
import ObjectQuery.Proofs.Plan.Retention

/-! # Pruning joins keeps the result

Joins are evaluated by nested loops over the rows of their tables. A join that is not retained is
a left join, which finds some row for every assignment before it, and no join that is retained
reads it; so what the retained aliases stand for is the same with and without it.

* `Database.nestedLoops`, `JoinGraph.results`: what joins mean;
* `nestedLoops_filter`: leaving out joins that nothing reads;
* `plan_pruning`: the retained joins of every graph of a plan have the results of all joins. -/

namespace ObjectQuery

variable {Row : Type}

/-! ## Evaluation -/

/-- What the aliases stand for while joins are evaluated: nothing before an alias is joined, and
then a row, or the null row. -/
abbrev Assignment (Row : Type) := AliasId → Option (Option Row)

namespace Assignment

/-- The assignment of some of the aliases only. -/
def restrict (s : Assignment Row) (keep : AliasSet) : Assignment Row := fun a =>
  if a ∈ keep then s a else none

/-- The assignment with one more alias joined. -/
def bind (s : Assignment Row) (id : AliasId) (row : Option Row) : Assignment Row := fun a =>
  if a = id then some row else s a

end Assignment

/-- The contents of the tables, and the predicates of the joins. A predicate tests a row of the
table that is joined, given what the other aliases stand for. -/
structure Database (Row : Type) where
  rows : String → List Row
  on : AliasId → Assignment Row → Row → Bool

namespace Database

/-- The rows that are joined to an assignment: those of the table that pass the predicate, which
knows the aliases that the node depends on, or the null row of a left join that finds none. -/
def found (db : Database Row) (n : JoinNode) (s : Assignment Row) : List (Option Row) :=
  match (db.rows n.component.table).filter (db.on n.id (s.restrict n.dependsOn)), n.kind with
  | [], .left => [none]
  | rows, _ => rows.map some

/-- The assignments that some joins, one after the other, make of an assignment. -/
def nestedLoops (db : Database Row) : List JoinNode → Assignment Row → List (Assignment Row)
  | [], s => [s]
  | n :: ns, s => (db.found n s).flatMap fun row => nestedLoops db ns (s.bind n.id row)

end Database

/-- The results of the joins of a graph in the given order, as far as some aliases are concerned;
the aliases of the queries around it are given by `start`. -/
def JoinGraph.results (g : JoinGraph) (db : Database Row) (order : List AliasId)
    (start : Assignment Row) (keep : AliasSet) : Set (Assignment Row) :=
  {t | ∃ s ∈ db.nestedLoops (order.filterMap g.node?) start, s.restrict keep = t}

/-! ## Agreement -/

/-- Two assignments agree wherever an alias is kept or is none of the graph. -/
def Assignment.Agree (g : JoinGraph) (keep : AliasSet) (s t : Assignment Row) : Prop :=
  ∀ a, (a ∈ g.aliases → a ∈ keep) → s a = t a

section
variable {g : JoinGraph} {keep : AliasSet} {db : Database Row} {s t : Assignment Row}
  {n : JoinNode} {ns : List JoinNode} {row : Option Row}

theorem Assignment.Agree.bind_both (h : s.Agree g keep t) (id : AliasId) :
    (s.bind id row).Agree g keep (t.bind id row) := by
  intro a ha
  simp only [bind, h a ha]

theorem Assignment.Agree.bind_left (h : s.Agree g keep t) (hn : n ∈ g.nodes) (hk : n.id ∉ keep) :
    (s.bind n.id row).Agree g keep t := by
  intro a ha
  have hne : a ≠ n.id := by
    rintro rfl
    exact hk (ha (List.mem_map_of_mem hn))
  simp only [bind, if_neg hne, h a ha]

theorem Assignment.Agree.restrict_eq (h : s.Agree g keep t) : s.restrict keep = t.restrict keep := by
  funext a
  simp only [restrict]
  split
  · rename_i ha
    exact h a fun _ => ha
  · rfl

/-- A join that is kept reads aliases only that are kept or come from around the graph. -/
theorem Assignment.Agree.found_eq (h : s.Agree g keep t) (hc : g.Closed keep) (hn : n ∈ g.nodes)
    (hk : n.id ∈ keep) : db.found n s = db.found n t := by
  have hreads : s.restrict n.dependsOn = t.restrict n.dependsOn := by
    funext a
    simp only [restrict]
    split
    · rename_i ha
      exact h a (hc n hn hk a ha)
    · rfl
  rw [Database.found, Database.found, hreads]

theorem Database.found_ne_nil (h : n.kind = .left) : db.found n s ≠ [] := by
  simp only [found, h]
  cases (db.rows n.component.table).filter (db.on n.id (s.restrict n.dependsOn)) with
  | nil => simp
  | cons row rows => simp

/-! ## Leaving out joins -/

/-- Every assignment of either list agrees with one of the other. -/
structure Match (g : JoinGraph) (keep : AliasSet) (ss ts : List (Assignment Row)) : Prop where
  forth : ∀ s ∈ ss, ∃ t ∈ ts, s.Agree g keep t
  back : ∀ t ∈ ts, ∃ s ∈ ss, s.Agree g keep t

/-- Both sides go on with the same rows. -/
theorem Match.flatMap_both {rows : List (Option Row)} {f f' : Option Row → List (Assignment Row)}
    (h : ∀ row, Match g keep (f row) (f' row)) : Match g keep (rows.flatMap f) (rows.flatMap f') := by
  constructor
  · intro s hs
    obtain ⟨row, hrow, hs⟩ := List.mem_flatMap.1 hs
    obtain ⟨t, ht, hagree⟩ := (h row).forth s hs
    exact ⟨t, List.mem_flatMap.2 ⟨row, hrow, ht⟩, hagree⟩
  · intro t ht
    obtain ⟨row, hrow, ht⟩ := List.mem_flatMap.1 ht
    obtain ⟨s, hs, hagree⟩ := (h row).back t ht
    exact ⟨s, List.mem_flatMap.2 ⟨row, hrow, hs⟩, hagree⟩

/-- One side goes on with some row, the other without any. -/
theorem Match.flatMap_left {rows : List (Option Row)} {f : Option Row → List (Assignment Row)}
    {ts : List (Assignment Row)} (hne : rows ≠ []) (h : ∀ row, Match g keep (f row) ts) :
    Match g keep (rows.flatMap f) ts := by
  constructor
  · intro s hs
    obtain ⟨row, -, hs⟩ := List.mem_flatMap.1 hs
    exact (h row).forth s hs
  · intro t ht
    obtain ⟨row, hrow⟩ := List.exists_mem_of_ne_nil rows hne
    obtain ⟨s, hs, hagree⟩ := (h row).back t ht
    exact ⟨s, List.mem_flatMap.2 ⟨row, hrow, hs⟩, hagree⟩

/-- Left joins can be left out when what is kept is closed. -/
theorem nestedLoops_filter (hc : g.Closed keep) (hns : ∀ n ∈ ns, n ∈ g.nodes)
    (hleft : ∀ n ∈ ns, n.id ∉ keep → n.kind = .left) (h : s.Agree g keep t) :
    Match g keep (db.nestedLoops ns s)
      (db.nestedLoops (ns.filter fun n => decide (n.id ∈ keep)) t) := by
  induction ns generalizing s t with
  | nil =>
    rw [List.filter_nil, Database.nestedLoops, Database.nestedLoops]
    constructor
    · intro s' hs
      exact ⟨t, List.mem_singleton_self t, List.mem_singleton.1 hs ▸ h⟩
    · intro t' ht
      exact ⟨s, List.mem_singleton_self s, List.mem_singleton.1 ht ▸ h⟩
  | cons n ns ih =>
    obtain ⟨hn, hns⟩ := List.forall_mem_cons.1 hns
    obtain ⟨hleft, hlefts⟩ := List.forall_mem_cons.1 hleft
    rw [List.filter_cons]
    by_cases hk : n.id ∈ keep
    · -- the join reads what both sides agree on, so that it finds the same rows
      rw [if_pos (decide_eq_true hk), Database.nestedLoops, Database.nestedLoops,
        h.found_eq hc hn hk]
      apply Match.flatMap_both
      intro row
      exact ih hns hlefts (h.bind_both n.id)
    · -- only its own alias tells the rows of a left join apart, and it finds at least one
      rw [if_neg (by simpa using hk), Database.nestedLoops]
      apply Match.flatMap_left (Database.found_ne_nil (hleft hk))
      intro row
      exact ih hns hlefts (h.bind_left hn hk)

end

namespace JoinGraph

variable {g : JoinGraph}

/-- Pruning keeps what the retained aliases stand for. -/
theorem results_retained (hnodup : g.aliases.Nodup)
    (hd : g.nodes.Pairwise fun m n => n.id ∉ m.dependsOn) (referenced : AliasSet)
    (db : Database Row) (start : Assignment Row) :
    g.results db (g.emissionOrder (AliasSet.ofList g.aliases)) start (g.retained referenced) =
      g.results db (g.emissionOrder (g.retained referenced)) start (g.retained referenced) := by
  have hall : (g.emissionOrder (AliasSet.ofList g.aliases)).filterMap g.node? = g.nodes := by
    rw [emissionOrder_aliases hd]
    exact filterMap_node? hnodup fun _ hn => hn
  have hkept : (g.emissionOrder (g.retained referenced)).filterMap g.node? =
      g.nodes.filter fun n => decide (n.id ∈ g.retained referenced) := by
    rw [emissionOrder_eq hd retained_subset]
    exact filterMap_node? hnodup fun _ hn => (List.mem_filter.1 hn).1
  have hmatch : Match g (g.retained referenced) (db.nestedLoops g.nodes start)
      (db.nestedLoops (g.nodes.filter fun n => decide (n.id ∈ g.retained referenced)) start) :=
    nestedLoops_filter retained_closed (fun _ hn => hn) (fun _ => kind_of_not_retained)
      fun _ _ => rfl
  rw [results, results, hall, hkept]
  ext t
  constructor
  · rintro ⟨s, hs, rfl⟩
    obtain ⟨t, ht, hagree⟩ := hmatch.forth s hs
    exact ⟨t, ht, hagree.restrict_eq.symm⟩
  · rintro ⟨s, hs, rfl⟩
    obtain ⟨t, ht, hagree⟩ := hmatch.back s hs
    exact ⟨t, ht, hagree.restrict_eq⟩

end JoinGraph

/-! ## The graphs of a plan -/

/-- The graphs of a query: its own, and those of the queries in its expressions. -/
inductive HasGraph : JoinGraph → ClauseSet → JoinGraph → Prop
  | own {g : JoinGraph} {c : ClauseSet} : HasGraph g c g
  | nested {g h : JoinGraph} {c : ClauseSet} {e : Expr} {q : Subquery} (he : e ∈ queryExprs g c)
    (hq : .subquery q ∈ e.pieces) (hg : HasGraph q.graph q.clauses h) : HasGraph g c h

/-- Every graph of a query comes from a `FROM` clause when its own does. -/
theorem HasGraph.graphFrom {env : Surroundings} {g h : JoinGraph} {c : ClauseSet} {levels : Nat}
    (hs : QuerySound env (SubqueryFrom env levels).Any g c)
    (hg : ∃ R T base f, GraphFrom env R T base f g) (hh : HasGraph g c h) :
    ∃ R T base f, GraphFrom env R T base f h := by
  induction hh generalizing levels with
  | own => exact hg
  | @nested _ _ _ _ q he hq _ ih =>
    obtain ⟨T, param, off, inner, hfrom⟩ := (hs.expr he).pieces _ hq
    cases levels with
    | zero => cases hfrom
    | succ levels =>
      have hsound := hfrom.sound
      obtain ⟨-, -, -, parsed, -, hfrom⟩ := hfrom
      exact ih hsound ⟨_, _, _, _, hfrom.graph⟩

section
variable {env : Surroundings} {T : Text} {p : QueryPlan} {g : JoinGraph}

/-- Tables that hold numbers, joined where the numbers are equal. -/
def Sample.numbers : Database Nat := ⟨fun _ => [1, 2], fun _ s row => s 0 == some (some row)⟩

/-- For every graph of a plan, whatever is referenced and whatever the tables hold, the retained
joins have the results of all joins, as far as the retained aliases are concerned. -/
theorem plan_pruning (h : plan env T = .ok p) (hg : HasGraph p.graph p.clauses g)
    (referenced : AliasSet) (db : Database Row) (start : Assignment Row) :
    g.results db (g.emissionOrder (AliasSet.ofList g.aliases)) start (g.retained referenced) =
      g.results db (g.emissionOrder (g.retained referenced)) start (g.retained referenced) := by
  have hp := plan_spec h
  obtain ⟨q, -, hq⟩ := hp.query
  obtain ⟨_, _, _, _, hfrom⟩ := hg.graphFrom hp.sound ⟨_, _, _, _, hq.graph⟩
  exact g.results_retained hfrom.nodup hfrom.declared referenced db start

theorem plan_pruning_sample : ∃ p, plan Sample.compiler.toSurroundings Sample.text = .ok p ∧
    p.graph.aliases = [0, 1] ∧ p.graph.retained ∅ = AliasSet.ofList [0] ∧
    p.graph.results Sample.numbers (p.graph.emissionOrder (AliasSet.ofList p.graph.aliases))
        (fun _ => none) (p.graph.retained ∅) =
      p.graph.results Sample.numbers (p.graph.emissionOrder (p.graph.retained ∅)) (fun _ => none)
        (p.graph.retained ∅) := by
  obtain ⟨p, hp, -, -, haliases, hretained⟩ := Sample.plan_text
  exact ⟨p, hp, haliases, hretained, plan_pruning hp .own ∅ Sample.numbers fun _ => none⟩

end
end ObjectQuery
