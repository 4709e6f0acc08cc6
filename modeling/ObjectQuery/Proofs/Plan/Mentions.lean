import ObjectQuery.Proofs.Columns.Declared
import ObjectQuery.Proofs.Plan.Builder
import ObjectQuery.Proofs.Sql.Restriction

/-! # What expressions mention

An alias is mentioned in an expression by a piece of its own, or by a query inside, within the `FROM`
clauses of that query and of those around it. An expression reads the aliases that it mentions and
that none of the `FROM` clauses on the way introduces. The set is found level by level, the aliases
of one graph being taken away at a time, and with it go the parents of joins and the owners of select
expressions, which are never mentioned: they are aliases of the graph itself.

* `Expr.Mentions`, `Expr.Free`: aliases that are mentioned;
* `Subquery.mem_outerReads_iff`, `Subquery.Formed.mem_outerReads_iff`: one level, and all of them;
* `exprs_canonical_and_exact`: expressions of builders and of plans. -/

namespace ObjectQuery

variable {env : Surroundings} {T : Text} {p : QueryPlan} {q r : Subquery} {e x : Expr} {a : AliasId}
  {P : Set AliasId} {N : Nat}

/-! ## Mentions -/

/-- The alias that a piece names. -/
def Piece.alias? : Piece → Option AliasId
  | .column id _ | .output id _ | .discriminator id _ => some id
  | .text _ | .placeholder _ | .subquery _ => none

/-- The expressions that a query writes: those of its clauses, and the conditions of its joins. -/
def Subquery.writes (q : Subquery) : List Expr :=
  q.clauses.rowExprs ++ q.clauses.laterExprs ++ q.graph.nodes.flatMap (·.conjuncts)

/-- The alias is mentioned in the expression, within the `FROM` clauses of some graphs, the outermost
first. -/
inductive Expr.Mentions : Expr → List JoinGraph → AliasId → Prop
  | own {e : Expr} {x : Piece} {a : AliasId} (hx : x ∈ e.pieces) (ha : x.alias? = some a) :
    Mentions e [] a
  | field {e : Expr} {q : Subquery} {f : SelectedField} (hq : .subquery q ∈ e.pieces)
    (hf : .field f ∈ q.clauses.select) : Mentions e [q.graph] f.owner
  | nested {e x : Expr} {q : Subquery} {gs : List JoinGraph} {a : AliasId}
    (hq : .subquery q ∈ e.pieces) (hx : x ∈ q.writes) (h : x.Mentions gs a) :
    Mentions e (q.graph :: gs) a

/-- The alias is mentioned in the expression where no `FROM` clause around it introduces it. -/
def Expr.Free (e : Expr) (a : AliasId) : Prop := ∃ gs, e.Mentions gs a ∧ ∀ g ∈ gs, a ∉ g.aliases

/-- The query does not introduce the alias, and selects a column of it or writes an expression with
the given property. -/
def Subquery.Exposes (P : Expr → Prop) (a : AliasId) (q : Subquery) : Prop :=
  a ∉ q.graph.aliases ∧
    ((∃ f, .field f ∈ q.clauses.select ∧ f.owner = a) ∨ ∃ x ∈ q.writes, P x)

theorem Expr.free_iff : e.Free a ↔ (∃ x ∈ e.pieces, x.alias? = some a) ∨
    ∃ q, .subquery q ∈ e.pieces ∧ q.Exposes (·.Free a) a := by
  constructor
  · rintro ⟨gs, h, hgs⟩
    cases h with
    | own hx ha => exact .inl ⟨_, hx, ha⟩
    | field hq hf =>
      exact .inr ⟨_, hq, hgs _ List.mem_cons_self, .inl ⟨_, hf, rfl⟩⟩
    | nested hq hx h =>
      obtain ⟨hg, hgs⟩ := List.forall_mem_cons.1 hgs
      exact .inr ⟨_, hq, hg, .inr ⟨_, hx, _, h, hgs⟩⟩
  · rintro (⟨x, hx, ha⟩ | ⟨q, hq, hg, ⟨f, hf, rfl⟩ | ⟨x, hx, gs, h, hgs⟩⟩)
    · exact ⟨[], .own hx ha, nofun⟩
    · exact ⟨_, .field hq hf, List.forall_mem_singleton.2 hg⟩
    · exact ⟨_, .nested hq hx h, List.forall_mem_cons.2 ⟨hg, hgs⟩⟩

/-! ## What is read -/

theorem Piece.mem_reads_iff {x : Piece} : a ∈ x.reads ↔
    x.alias? = some a ∨ ∃ q, x = .subquery q ∧ a ∈ q.outerReads := by
  cases x with
  | text | placeholder => simp [reads, alias?]
  | column | output | discriminator => simp [reads, alias?, eq_comm]
  | subquery q => simp [reads, alias?]

theorem Expr.mem_reads_iff : a ∈ e.reads ↔ (∃ x ∈ e.pieces, x.alias? = some a) ∨
    ∃ q, .subquery q ∈ e.pieces ∧ a ∈ q.outerReads := by
  rw [reads_eq, Piece.mem_readsAll]
  simp only [Piece.mem_reads_iff, and_or_left, exists_or]
  refine or_congr_right ⟨?_, ?_⟩
  · rintro ⟨_, hx, q, rfl, ha⟩
    exact ⟨q, hx, ha⟩
  · rintro ⟨q, hq, ha⟩
    exact ⟨_, hq, q, rfl, ha⟩

/-- One level: what a query reads of the queries around it. -/
theorem Subquery.mem_outerReads_iff
    (howners : ∀ o k e name, .expression o k e name ∈ q.clauses.select → o ∈ q.graph.aliases)
    (hparents : ∀ n ∈ q.graph.nodes, ∀ a ∈ n.parent, a ∈ q.graph.aliases) :
    a ∈ q.outerReads ↔ q.Exposes (a ∈ ·.reads) a := by
  obtain ⟨graph, clauses, emitted⟩ := q
  rw [mem_outerReads, and_comm]
  refine and_congr_right fun ha => ?_
  simp only [ClauseSet.mem_reads, JoinGraph.mem_dependsOn, JoinNode.mem_dependsOn_iff, writes]
  constructor
  · rintro ((⟨i, hi, rfl⟩ | ⟨e, he, hread⟩) | ⟨n, hn, -, hp | ⟨e, he, hread⟩⟩)
    · cases i with
      | field f => exact .inl ⟨f, hi, rfl⟩
      | expression o k e name => exact absurd (howners o k e name hi) ha
    · exact .inr ⟨e, List.mem_append_left _ he, hread⟩
    · exact absurd (hparents n hn a hp) ha
    · exact .inr ⟨e, List.mem_append_right _ (List.mem_flatMap.2 ⟨n, hn, he⟩), hread⟩
  · rintro (⟨f, hf, rfl⟩ | ⟨e, he, hread⟩)
    · exact .inl (.inl ⟨_, hf, rfl⟩)
    · rcases List.mem_append.1 he with he | he
      · exact .inl (.inr ⟨e, he, hread⟩)
      · obtain ⟨n, hn, he⟩ := List.mem_flatMap.1 he
        have hne : a ≠ n.id := fun h => ha (h ▸ List.mem_map_of_mem hn)
        exact .inr ⟨n, hn, hne, .inr ⟨e, he, hread⟩⟩

theorem Subquery.mem_queryExprs_of_writes (hx : x ∈ q.writes) :
    x ∈ queryExprs q.graph q.clauses := by
  refine (List.mem_append.1 hx).elim (List.mem_append_left _) fun hx => List.mem_append_right _ ?_
  obtain ⟨n, hn, hx⟩ := List.mem_flatMap.1 hx
  exact List.mem_flatMap.2 ⟨n, hn, n.mem_exprs_of_mem_conjuncts hx⟩

/-- An expression reads what it mentions and what is not introduced on the way, if the queries inside
it do. -/
theorem Expr.mem_reads_iff_free
    (h : ∀ q, .subquery q ∈ e.pieces → (a ∈ q.outerReads ↔ q.Exposes (·.Free a) a)) :
    a ∈ e.reads ↔ e.Free a := by
  rw [mem_reads_iff, free_iff]
  exact or_congr_right (exists_congr fun q => and_congr_right (h q))

/-- All levels: what a query that is resolved reads of the queries around it. -/
theorem Subquery.Formed.mem_outerReads_iff (h : q.Formed P) :
    a ∈ q.outerReads ↔ q.Exposes (·.Free a) a := by
  induction h with
  | @intro q _ parents owners _ _ _ ih =>
    rw [Subquery.mem_outerReads_iff owners parents]
    refine and_congr_right fun _ => or_congr_right ?_
    refine exists_congr fun x => and_congr_right fun hx => ?_
    exact Expr.mem_reads_iff_free (ih x (mem_queryExprs_of_writes hx))

/-! ## Expressions of a plan -/

theorem Subquery.HasQuery.formed (h : q.HasQuery r)
    (hq : QueryFormed (·.Formed P) q.graph q.clauses) :
    QueryFormed (·.Formed P) r.graph r.clauses := by
  induction h with
  | own => exact hq
  | nested he hr _ ih => exact ih (hq.nested _ he _ hr).queryFormed

/-- Every expression of a plan, at any level of nesting, is made of pieces in canonical form. -/
theorem PlanFrom.canonical (h : PlanFrom env T p) (hq : p.query.HasQuery q)
    (he : e ∈ queryExprs q.graph q.clauses) : ∃ ps, e.pieces = canonicalPieces ps := by
  have htext {R : Origin} {T : Text} (s : Segment) (x : Expr) (hx : ExprFrom env R T s x) :
      ∃ ps, x.pieces = canonicalPieces ps := by
    obtain ⟨_, ps, -, -, hps⟩ := hx
    exact ⟨ps, hps⟩
  have hschema (x : Expr) (hx : x.Generated env) : ∃ ps, x.pieces = canonicalPieces ps := by
    obtain ⟨ps, -, hps⟩ := hx
    exact ⟨ps, hps⟩
  rcases hq.origin h.sound with rfl | ⟨levels, T', param, off, inner, hfrom⟩
  · obtain ⟨t, -, hquery⟩ := h.query
    refine hquery.forall_exprs htext hschema (fun t ht hi => ?_) e he
    obtain ⟨ordering, s, -, hx⟩ := h.implicit t ht hi
    exact htext s _ hx
  · cases levels with
    | zero => cases hfrom
    | succ levels =>
      obtain ⟨-, hexplicit, -, t, -, hquery⟩ := hfrom
      refine hquery.forall_exprs htext hschema (fun t ht hi => ?_) e he
      rw [hexplicit t ht] at hi
      cases hi

/-- An expression that is made call by call has no empty text and no two texts side by side, and the
set that grew with it is what it reads. So is every expression of a plan made, at any level of
nesting, and what it reads is what it mentions where no `FROM` clause inside it introduces it. -/
theorem exprs_canonical_and_exact :
    (∀ calls : List ExprBuilder.Call, Canonical (ExprBuilder.run calls).build.pieces ∧
      (ExprBuilder.run calls).reads = (ExprBuilder.run calls).build.reads) ∧
    ∀ (env : Surroundings) (T : Text) (p : QueryPlan), plan env T = .ok p →
      ∀ q, p.query.HasQuery q → ∀ e ∈ queryExprs q.graph q.clauses,
        (∃ calls, ExprBuilder.run calls = ⟨e.pieces, e.reads, e.aggregate⟩) ∧
          ∀ a, a ∈ e.reads ↔ ∃ gs, e.Mentions gs a ∧ ∀ g ∈ gs, a ∉ g.aliases := by
  refine ⟨fun calls => ⟨?_, ExprBuilder.reads_run calls⟩, fun env T p h q hq e he => ⟨?_, fun a => ?_⟩⟩
  · rw [ExprBuilder.build_run]
    exact canonical_canonicalPieces _
  · obtain ⟨ps, hps⟩ := (plan_spec h).canonical hq he
    exact ExprBuilder.exists_run hps
  · obtain ⟨N, hover⟩ := plan_over h
    have hformed := hq.formed hover.formed
    exact Expr.mem_reads_iff_free fun r hr => (hformed.nested e he r hr).mem_outerReads_iff

/-- Users with a phone whose number another phone of theirs has. -/
def Sample.correlated : Text :=
  ["SELECT", "u.name", "FROM", "User", "u", "WHERE", "EXISTS", "(SELECT", "p.id", "FROM", "Phone", "p",
    "WHERE", "p.user_id = u.id", "AND", "EXISTS", "(SELECT", "q.id", "FROM", "Phone", "q", "WHERE",
    "q.number = p.number", "AND", "q.user_id = u.id))"].flatMap fun word => word.toList ++ [' ']

/-- Of the aliases that the condition mentions, only the users are free in it. -/
theorem exprs_canonical_and_exact_correlated :
    ∃ p, plan Sample.compiler.toSurroundings Sample.correlated = .ok p ∧
      ∃ e ∈ p.clauses.filter, ∀ a,
        (∃ gs, e.Mentions gs a ∧ ∀ g ∈ gs, a ∉ g.aliases) ↔ a = 0 := by
  have hplan : ∃ p, plan Sample.compiler.toSurroundings Sample.correlated = .ok p ∧
      p.clauses.filter.map (·.reads) = some (.ofList [0]) := by decide +kernel
  obtain ⟨p, hp, hfilter⟩ := hplan
  obtain ⟨e, he, hreads⟩ := Option.map_eq_some_iff.1 hfilter
  have hmem : e ∈ queryExprs p.query.graph p.query.clauses :=
    List.mem_append_left _ (List.mem_append_left _ (List.mem_append_right _
      (Option.mem_toList.2 he)))
  refine ⟨p, hp, e, he, fun a => ?_⟩
  rw [← (exprs_canonical_and_exact.2 _ _ p hp _ .own e hmem).2, hreads]
  simp

end ObjectQuery
