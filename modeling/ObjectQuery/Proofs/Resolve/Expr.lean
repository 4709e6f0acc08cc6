import ObjectQuery.Proofs.Plan.Reads
import ObjectQuery.Proofs.Resolve.Bindings
import ObjectQuery.Resolve.Expr

/-! # Expressions are resolved where they stand

An expression that is resolved comes from the text at its place, reads occurrences that exist, and
leaves the scopes alone, provided that the resolver of subqueries does the same
(`ResolveSubquery.Yields`).

* `exists_of_resolveReference`, `resolveBare_cases`: what words stand for;
* `runs_resolve_word`: the pieces a word can become (`WordPiece`);
* `Fragment.becomes`, `runs_resolveFragments_cons`, `runs_resolveExpr`: what a run consists of;
* `Fragment.resolve_spec`, `resolveFragments_spec`, `resolveExpr_spec`. -/

namespace ObjectQuery

open Resolve

variable {env : Surroundings} {R : Origin} {T : Text} {subquery : ResolveSubquery}
  {clause : Clause} {bare : BareWords} {join : Option JoinScope} {param off : Nat}
  {b b' : Bindings}

/-- The resolver of subqueries yields subqueries that come from the text, read occurrences that
exist, and leaves the scopes alone. -/
def ResolveSubquery.Yields (subquery : ResolveSubquery) (env : Surroundings) (R : Origin) : Prop :=
  ∀ (T : Text) (off param : Nat) (inner : Text) (clause : Clause) (b b' : Bindings) (q : Subquery),
    b.Sound env → env.config.scanner.Stands T off param inner →
    Runs (subquery inner param clause) b q b' →
    b.Extends env b' ∧ R T param off inner q ∧ q.outerReads.Below b'.size

/-- The words without points stand for occurrences that exist. -/
structure BareWords.Sound (bare : BareWords) (n : Nat) : Prop where
  output : ∀ name owner ordinal, bare.output? name = some (owner, ordinal) → owner < n
  default : ∀ id ∈ bare.default, id < n

theorem BareWords.Sound.mono {m n : Nat} (h : bare.Sound m) (hn : m ≤ n) : bare.Sound n :=
  ⟨fun name o k ho => Nat.lt_of_lt_of_le (h.output name o k ho) hn,
    fun id hid => Nat.lt_of_lt_of_le (h.default id hid) hn⟩

theorem BareWords.Sound.empty {n : Nat} : BareWords.Sound {} n := ⟨nofun, nofun⟩

/-! ## Words -/

/-- What a word without a point stands for, if it has a meaning: a select expression, or else a column
of the occurrence that such words are about. -/
inductive BareWords.Means (bare : BareWords) (b : Bindings) (w : Text) : Piece → Prop
  | output {owner : AliasId} {ordinal : Nat}
    (ho : bare.output? (String.ofList w) = some (owner, ordinal)) : Means bare b w (.output owner ordinal)
  | column {id : AliasId} {c : Component} {column : Column}
    (ho : bare.output? (String.ofList w) = none) (hid : bare.default = some id)
    (hc : b.component? id = some c) (hcol : c.column? (String.ofList w) = some column) :
    Means bare b w (.column id column.name)

/-- What a word becomes: itself, a select expression, or a column of the alias before its point or of
the occurrence that words without points are about. -/
inductive WordPiece (b : Bindings) (bare : BareWords) (w : Text) : Piece → Prop
  | kept : WordPiece b bare w (.text w)
  | reference {name : String} {id : AliasId} {c : Component} {column : Column} (hw : '.' ∈ w)
    (hl : b.resolver.lookup? name = some id) (hc : b.component? id = some c)
    (hcol : column ∈ c.columns) : WordPiece b bare w (.column id column.name)
  | column {id : AliasId} {c : Component} {column : Column} (hid : bare.default = some id)
    (hc : b.component? id = some c) (hcol : column ∈ c.columns) :
    WordPiece b bare w (.column id column.name)
  | output {name : String} {owner : AliasId} {ordinal : Nat}
    (ho : bare.output? name = some (owner, ordinal)) : WordPiece b bare w (.output owner ordinal)

theorem BareWords.Means.wordPiece {w : Text} {p : Piece} (h : bare.Means b w p) :
    WordPiece b bare w p := by
  cases h with
  | output ho => exact .output ho
  | column _ hid hc hcol => exact .column hid hc (Component.mem_of_column? hcol)

/-- A word with a point is resolved to a column of its alias, and has one point only. -/
theorem exists_of_resolveReference {w : Text} {p : Piece}
    (h : (resolveReference clause join w).Runs b p b') :
    b' = b ∧ '.' ∉ (w.dropWhile (· != '.')).drop 1 ∧ ∃ id c column,
      b.resolver.lookup? (String.ofList (w.takeWhile (· != '.'))) = some id ∧
      b.component? id = some c ∧
      c.column? (String.ofList ((w.dropWhile (· != '.')).drop 1)) = some column ∧
      p = .column id column.name := by
  obtain ⟨id?, _, h1, h2⟩ := runs_bind.1 h
  obtain ⟨hl, rfl⟩ := runs_lookup?.1 h1
  cases id? with
  | none =>
    cases join with
    | none => exact absurd h2 not_runs_throw
    | some scope =>
      simp only at h2
      split at h2 <;> exact absurd h2 not_runs_throw
  | some id =>
    simp only at h2
    split at h2
    · exact absurd h2 not_runs_throw
    · rename_i hdot
      obtain ⟨component, _, h3, h4⟩ := runs_bind.1 h2
      obtain ⟨hc, rfl⟩ := runs_componentOf.1 h3
      split at h4
      · rename_i column hcol
        obtain ⟨rfl, rfl⟩ := runs_pure.1 h4
        exact ⟨rfl, by simpa using hdot, id, component, column, hl, hc, hcol, rfl⟩
      · exact absurd h4 not_runs_throw

theorem runs_resolveReference {w : Text} {p : Piece} (hw : '.' ∈ w)
    (h : (resolveReference clause join w).Runs b p b') : b' = b ∧ WordPiece b bare w p := by
  obtain ⟨rfl, -, id, c, column, hl, hc, hcol, rfl⟩ := exists_of_resolveReference h
  exact ⟨rfl, .reference hw hl hc (Component.mem_of_column? hcol)⟩

/-- A word without a point is resolved to what it means; it is kept when it has no meaning or is
reserved. -/
theorem resolveBare_cases {w : Text} {p : Piece} (h : (resolveBare bare w).Runs b p b') :
    b' = b ∧ (w.isReserved = true ∧ p = .text w ∨ w.isReserved = false ∧
      (bare.Means b w p ∨ (∀ p', ¬ bare.Means b w p') ∧ p = .text w)) := by
  simp only [resolveBare] at h
  split at h
  · rename_i hr
    obtain ⟨rfl, rfl⟩ := runs_pure.1 h
    exact ⟨rfl, .inl ⟨hr, rfl⟩⟩
  · rename_i hr
    have hr : w.isReserved = false := Bool.not_eq_true _ ▸ hr
    split at h
    · rename_i owner ordinal ho
      obtain ⟨rfl, rfl⟩ := runs_pure.1 h
      exact ⟨rfl, .inr ⟨hr, .inl (.output ho)⟩⟩
    · rename_i ho
      obtain ⟨_, _, h1, h2⟩ := runs_bind.1 h
      obtain ⟨rfl, rfl⟩ := runs_get.1 h1
      split at h2
      · rename_i id column hcol
        obtain ⟨rfl, rfl⟩ := runs_pure.1 h2
        simp only [Option.bind_eq_bind, Option.bind_eq_some_iff, Option.pure_def,
          Option.some.injEq, Prod.mk.injEq] at hcol
        obtain ⟨id', hid, component, hc, col, hcol, rfl, rfl⟩ := hcol
        exact ⟨rfl, .inr ⟨hr, .inl (.column ho hid hc hcol)⟩⟩
      · rename_i hnone
        obtain ⟨rfl, rfl⟩ := runs_pure.1 h2
        refine ⟨rfl, .inr ⟨hr, .inr ⟨fun p' hp' => ?_, rfl⟩⟩⟩
        cases hp' with
        | output ho' => rw [ho] at ho'; cases ho'
        | column _ hid hc hcol => simp [hid, hc, hcol] at hnone

theorem runs_resolveBare {w : Text} {p : Piece} (h : (resolveBare bare w).Runs b p b') :
    b' = b ∧ WordPiece b bare w p := by
  obtain ⟨rfl, ⟨-, rfl⟩ | ⟨-, hp | ⟨-, rfl⟩⟩⟩ := resolveBare_cases h
  · exact ⟨rfl, .kept⟩
  · exact ⟨rfl, hp.wordPiece⟩
  · exact ⟨rfl, .kept⟩

theorem runs_resolve_word {w : Text} {called : Bool} {ps : List Piece}
    (h : (Fragment.resolve subquery clause bare join param (.word w called)).Runs b ps b') :
    b' = b ∧ ∃ p, ps = [p] ∧ WordPiece b bare w p := by
  simp only [Fragment.resolve] at h
  split at h
  · rename_i hw
    obtain ⟨p, _, h1, h2⟩ := runs_bind.1 h
    obtain ⟨rfl, rfl⟩ := runs_pure.1 h2
    obtain ⟨rfl, hp⟩ := runs_resolveReference (List.contains_iff_mem.1 hw) h1
    exact ⟨rfl, p, rfl, hp⟩
  · split at h
    · obtain ⟨rfl, rfl⟩ := runs_pure.1 h
      exact ⟨rfl, _, rfl, .kept⟩
    · obtain ⟨p, _, h1, h2⟩ := runs_bind.1 h
      obtain ⟨rfl, rfl⟩ := runs_pure.1 h2
      obtain ⟨rfl, hp⟩ := runs_resolveBare h1
      exact ⟨rfl, p, rfl, hp⟩

/-! ## Runs -/

/-- What a fragment becomes: itself, a placeholder, a query between parentheses, or what its word
stands for. -/
inductive Fragment.Becomes (subquery : ResolveSubquery) (clause : Clause) (bare : BareWords)
    (param : Nat) (b : Bindings) : Fragment → List Piece → Bindings → Prop
  | verbatim {t : Text} : Becomes subquery clause bare param b (.verbatim t) [.text t] b
  | placeholder : Becomes subquery clause bare param b .placeholder [.placeholder param] b
  | subquery {inner : Text} {q : Subquery} {b' : Bindings}
    (h : (subquery inner param clause).Runs b q b') :
    Becomes subquery clause bare param b (.subquery inner)
      [.text ['('], .subquery q, .text [')']] b'
  | word {w : Text} {called : Bool} {p : Piece} (h : WordPiece b bare w p) :
    Becomes subquery clause bare param b (.word w called) [p] b

theorem Fragment.becomes {f : Fragment} {ps : List Piece}
    (h : (f.resolve subquery clause bare join param).Runs b ps b') :
    f.Becomes subquery clause bare param b ps b' := by
  cases f with
  | verbatim t =>
    obtain ⟨rfl, rfl⟩ := runs_pure.1 h
    exact .verbatim
  | placeholder =>
    obtain ⟨rfl, rfl⟩ := runs_pure.1 h
    exact .placeholder
  | named t => exact absurd h not_runs_malformed
  | subquery inner =>
    obtain ⟨q, _, h1, h2⟩ := runs_bind.1 h
    obtain ⟨rfl, rfl⟩ := runs_pure.1 h2
    exact .subquery h1
  | word w called =>
    obtain ⟨rfl, p, rfl, hp⟩ := runs_resolve_word h
    exact .word hp

theorem runs_resolveFragments_cons {scanner : Scanner} {f : Fragment} {fs : List Fragment}
    {ps : List Piece}
    (h : (resolveFragments scanner subquery clause bare join param (f :: fs)).Runs b ps b') :
    ∃ qs b₁ rs, (f.resolve subquery clause bare join param).Runs b qs b₁ ∧
      (resolveFragments scanner subquery clause bare join (param + f.placeholders scanner) fs).Runs
        b₁ rs b' ∧ ps = qs ++ rs := by
  obtain ⟨qs, b₁, h1, h⟩ := runs_bind.1 h
  obtain ⟨rs, _, h2, h3⟩ := runs_bind.1 h
  obtain ⟨rfl, rfl⟩ := runs_pure.1 h3
  exact ⟨qs, b₁, rs, h1, h2, rfl⟩

/-- An expression is made of the pieces that its fragments become. -/
theorem runs_resolveExpr {scanner : Scanner} {t : Text} {e : Expr}
    (h : (resolveExpr scanner subquery clause bare join param t).Runs b e b') :
    scanner.validate t = .ok () ∧ ∃ ps,
      (resolveFragments scanner subquery clause bare join param (Fragment.ofText scanner t)).Runs
        b ps b' ∧ e = Expr.ofPieces ps ((Fragment.ofText scanner t).any Fragment.isAggregate) := by
  obtain ⟨_, _, h1, h⟩ := runs_bind.1 h
  obtain ⟨hvalid, rfl⟩ := runs_scanning.1 h1
  obtain ⟨ps, _, h2, h3⟩ := runs_bind.1 h
  obtain ⟨rfl, rfl⟩ := runs_pure.1 h3
  exact ⟨hvalid, ps, h2, rfl⟩

/-! ## Fragments -/

theorem below_singleton {p : Piece} {n : Nat} (h : p.reads.Below n) :
    (Piece.readsAll [p]).Below n := fun a ha => by
  obtain ⟨_, hq, ha⟩ := Piece.mem_readsAll.1 ha
  rw [List.mem_singleton.1 hq] at ha
  exact h a ha

theorem below_column {id : AliasId} {name : String} {n : Nat} (h : id < n) :
    (Piece.reads (.column id name)).Below n :=
  AliasSet.below_ofList.2 fun _ ha => List.mem_singleton.1 ha ▸ h

theorem below_output {id : AliasId} {ordinal n : Nat} (h : id < n) :
    (Piece.reads (.output id ordinal)).Below n :=
  AliasSet.below_ofList.2 fun _ ha => List.mem_singleton.1 ha ▸ h

theorem Fragment.resolve_spec {f : Fragment} {ps : List Piece}
    (hsub : subquery.Yields env R) (hb : b.Sound env) (hbare : bare.Sound b.size)
    (hw : f.WellRead env.config.scanner) (ho : env.config.scanner.Occurs T off param f.source)
    (h : (f.resolve subquery clause bare join param).Runs b ps b') :
    b.Extends env b' ∧ FragmentFrom env R T param off f ps ∧ (Piece.readsAll ps).Below b'.size := by
  cases Fragment.becomes h with
  | verbatim => exact ⟨.refl hb, .verbatim, below_singleton AliasSet.below_empty⟩
  | placeholder =>
    refine ⟨.refl hb, .placeholder ?_, below_singleton AliasSet.below_empty⟩
    exact ho.question (j := 0) (i := 0) rfl
  | @subquery inner q _ h =>
    have hstands : env.config.scanner.Stands T (off + 1) param inner := by
      refine ⟨hw.1, ?_⟩
      have := (Scanner.Occurs.tail (a := ['(']) (b := inner ++ [')']) ho rfl).head
      simpa [Scanner.count, Scanner.questions, Scanner.questionsFrom] using this
    obtain ⟨hext, hR, hreads⟩ := hsub _ _ _ _ _ _ _ _ hb hstands h
    refine ⟨hext, .subquery hR, fun a ha => ?_⟩
    obtain ⟨p, hp, ha⟩ := Piece.mem_readsAll.1 ha
    simp only [List.mem_cons, List.not_mem_nil, or_false] at hp
    rcases hp with rfl | rfl | rfl
    · exact absurd ha (AliasSet.not_mem_empty a)
    · exact hreads a ha
    · exact absurd ha (AliasSet.not_mem_empty a)
  | word hp =>
    refine ⟨.refl hb, ?_⟩
    cases hp with
    | kept => exact ⟨.kept, below_singleton AliasSet.below_empty⟩
    | reference _ hl hc hcol =>
      exact ⟨.column ((hb.describes hc).hasColumn hcol), below_singleton
        (below_column (hb.lookup hl).1)⟩
    | column hid hc hcol =>
      exact ⟨.column ((hb.describes hc).hasColumn hcol), below_singleton
        (below_column (hbare.default _ hid))⟩
    | output ho => exact ⟨.output, below_singleton (below_output (hbare.output _ _ _ ho))⟩

theorem resolveFragments_spec {fs : List Fragment} {ps : List Piece}
    (hsub : subquery.Yields env R) (hb : b.Sound env) (hbare : bare.Sound b.size)
    (hw : ∀ f ∈ fs, f.WellRead env.config.scanner)
    (ho : env.config.scanner.Occurs T off param (fs.flatMap Fragment.source))
    (h : (resolveFragments env.config.scanner subquery clause bare join param fs).Runs b ps b') :
    b.Extends env b' ∧ FragmentsFrom env R T param off fs ps ∧
      (Piece.readsAll ps).Below b'.size := by
  induction fs generalizing param off b ps with
  | nil =>
    obtain ⟨rfl, rfl⟩ := runs_pure.1 h
    exact ⟨.refl hb, .nil, AliasSet.below_empty⟩
  | cons f fs ih =>
    obtain ⟨ps, b₁, rest, h1, h2, rfl⟩ := runs_resolveFragments_cons h
    have hwf := hw f List.mem_cons_self
    rw [List.flatMap_cons] at ho
    obtain ⟨hext, hf, hreads⟩ := Fragment.resolve_spec hsub hb hbare hwf ho.head h1
    have htail := ho.tail hwf.run_source
    rw [hwf.count_source] at htail
    obtain ⟨hext', hfs, hreads'⟩ := ih hext.sound (hbare.mono hext.size_le)
      (fun g hg => hw g (List.mem_cons_of_mem _ hg)) htail h2
    exact ⟨hext.trans hext', .cons hf hfs,
      Piece.below_append.2 ⟨hreads.mono hext'.size_le, hreads'⟩⟩

/-- An expression comes from its text and reads occurrences that exist. -/
theorem resolveExpr_spec {g : Segment} {e : Expr} (hsub : subquery.Yields env R)
    (hb : b.Sound env) (hbare : bare.Sound b.size)
    (hs : env.config.scanner.Stands T off g.firstParam g.text)
    (h : (resolveExpr env.config.scanner subquery clause bare join g.firstParam g.text).Runs
      b e b') :
    b.Extends env b' ∧ ExprFrom env R T g e ∧ e.reads.Below b'.size := by
  obtain ⟨-, ps, hps, rfl⟩ := runs_resolveExpr h
  have hrun := hs.balanced.run
  obtain ⟨hext, hps, hreads⟩ := resolveFragments_spec hsub hb hbare
    (fun f hf => Fragment.wellRead_of_mem_ofText hrun hf)
    (by rw [Fragment.flatMap_source_ofText hrun]; exact hs.2) hps
  exact ⟨hext, ⟨off, ps, hs, hps, rfl⟩, Expr.below_ofPieces hreads⟩

end ObjectQuery
