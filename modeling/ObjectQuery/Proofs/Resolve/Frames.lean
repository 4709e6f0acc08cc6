import ObjectQuery.Proofs.Resolve.Outcomes
import ObjectQuery.Proofs.Scope.Bindings
import ObjectQuery.Resolve.Query

/-! # What a resolution leaves alone

Resolving an expression, whether it succeeds or fails, leaves the scopes and the occurrences made
before as they are, and only makes further occurrences (`Bindings.Frames`). A subquery binds aliases
while it is resolved, but in a scope of its own, which is left in any case; what it binds are
occurrences that it made itself (`Bindings.Spares`).

* `Resolve.Frames`, `Resolve.Spares`: computations that do so from any bindings;
* `Resolve.frames_inScope`: a computation in a scope of its own;
* `resolveFrom_spares`, `resolveClauses_frames`: the parts of a query;
* `resolveSubquery_frames`: subqueries, by induction on the levels that are left;
* `resolveExpr_leaves`: expressions of a query at any depth. -/

namespace ObjectQuery

variable {α β : Type} {n : Nat} {b b' b'' : Bindings} {id : AliasId}

namespace Bindings

/-- The number of queries around the query at hand; a subquery is refused when it has come to the
deepest level (`Query.Reaches.levels_add_depth`). -/
def depth (b : Bindings) : Nat := b.resolver.outer.length

/-- What resolving an expression does to bindings: the scopes stay, the occurrences stay with their
names, tables and components, and further ones may come after them. -/
structure Frames (b b' : Bindings) : Prop where
  scope : b'.resolver.scope = b.resolver.scope
  outer : b'.resolver.outer = b.resolver.outer
  occurrences : b.resolver.occurrences <+: b'.resolver.occurrences
  components : ∀ id < b.size, b'.component? id = b.component? id

/-- The aliases of the query at hand stand for occurrences from `n` on. -/
structure Owns (n : Nat) (b : Bindings) : Prop where
  le_size : n ≤ b.size
  scope : ∀ e ∈ b.resolver.scope, n ≤ e.2

/-- What a query that owns the occurrences from `n` on does to bindings: the scopes around it and the
occurrences before `n` stay. -/
structure Spares (n : Nat) (b b' : Bindings) : Prop where
  owns : b'.Owns n
  outer : b'.resolver.outer = b.resolver.outer
  occurrences : b.resolver.occurrences <+: b'.resolver.occurrences
  components : ∀ id < n, b'.component? id = b.component? id

theorem Frames.refl (b : Bindings) : b.Frames b := ⟨rfl, rfl, List.prefix_refl _, fun _ _ => rfl⟩

theorem Frames.size_le (h : b.Frames b') : b.size ≤ b'.size := h.occurrences.length_le

theorem Frames.trans (h : b.Frames b') (h' : b'.Frames b'') : b.Frames b'' where
  scope := h'.scope.trans h.scope
  outer := h'.outer.trans h.outer
  occurrences := h.occurrences.trans h'.occurrences
  components id hid :=
    (h'.components id (Nat.lt_of_lt_of_le hid h.size_le)).trans (h.components id hid)

theorem Frames.lookup? (h : b.Frames b') (name : String) :
    b'.resolver.lookup? name = b.resolver.lookup? name := by
  rw [Resolver.lookup?, Resolver.lookup?, h.scope, h.outer]

theorem Frames.sees_eq (h : b.Frames b') : b'.Sees = b.Sees := by
  rw [Sees, Sees, h.scope, h.outer]

theorem Frames.spares (h : b.Frames b') (hb : b.Owns n) : b.Spares n b' where
  owns := ⟨Nat.le_trans hb.le_size h.size_le, h.scope ▸ hb.scope⟩
  outer := h.outer
  occurrences := h.occurrences
  components id hid := h.components id (Nat.lt_of_lt_of_le hid hb.le_size)

theorem Spares.trans (h : b.Spares n b') (h' : b'.Spares n b'') : b.Spares n b'' where
  owns := h'.owns
  outer := h'.outer.trans h.outer
  occurrences := h.occurrences.trans h'.occurrences
  components id hid := (h'.components id hid).trans (h.components id hid)

theorem component?_cons_of_ne {r : Resolver} {known : AliasId} {component : Component}
    (h : known ≠ id) : component? ⟨r, (known, component) :: b.components⟩ id = b.component? id := by
  rw [component?, List.find?_cons_of_neg (by simpa using h)]
  rfl

/-- A component is remembered for an occurrence that the query owns. -/
theorem Owns.spares {r : Resolver} {known : AliasId} {component : Component} (hb : b.Owns n)
    (houter : r.outer = b.resolver.outer) (hocc : b.resolver.occurrences <+: r.occurrences)
    (hscope : ∀ e ∈ r.scope, e ∈ b.resolver.scope ∨ e.2 = known) (hknown : n ≤ known) :
    b.Spares n ⟨r, (known, component) :: b.components⟩ where
  owns := by
    refine ⟨Nat.le_trans hb.le_size hocc.length_le, fun e he => ?_⟩
    rcases hscope e he with he | rfl
    · exact hb.scope e he
    · exact hknown
  outer := houter
  occurrences := hocc
  components id hid := component?_cons_of_ne (Nat.lt_of_lt_of_le hid hknown).ne'

end Bindings

/-! ## Computations -/

namespace Resolve

/-- Whatever its outcome, the computation leaves the scopes and the occurrences made before alone. -/
def Frames (x : Resolve α) : Prop := ∀ b : Bindings, b.Frames (x.run b).2

/-- Whatever its outcome, the computation leaves alone what is outside a query that owns the
occurrences from `n` on. -/
def Spares (n : Nat) (x : Resolve α) : Prop := ∀ b : Bindings, b.Owns n → b.Spares n (x.run b).2

variable {x : Resolve α} {f : α → Resolve β} {a : α} {clause : Clause}

theorem frames_lift (r : Except QueryError α) : Frames (ExceptT.mk (pure r)) := fun b => .refl b

theorem frames_pure (a : α) : Frames (pure a) := frames_lift _

theorem frames_throw (e : QueryError) : Frames (throw e : Resolve α) := frames_lift _

theorem frames_get : Frames (get : Resolve Bindings) := fun b => .refl b

theorem run_bind_cases (x : Resolve α) (f : α → Resolve β) (b : Bindings) :
    (∃ a, x.Runs b a (x.run b).2 ∧ ((x >>= f).run b).2 = ((f a).run (x.run b).2).2) ∨
      ((x >>= f).run b).2 = (x.run b).2 := by
  cases hx : x.run b with
  | mk r b₁ =>
    cases r with
    | error e => exact .inr (by rw [run_bind_of_error hx])
    | ok a => exact .inl ⟨a, hx, by rw [run_bind_of_runs hx]⟩

theorem Frames.bind (hx : x.Frames) (hf : ∀ a, (f a).Frames) : (x >>= f).Frames := by
  intro b
  rcases run_bind_cases x f b with ⟨a, -, he⟩ | he
  · exact he ▸ (hx b).trans (hf a _)
  · exact he ▸ hx b

theorem Frames.map {g : α → β} (hx : x.Frames) : (g <$> x).Frames := by
  rw [map_eq_pure_bind]
  exact hx.bind fun _ => frames_pure _

theorem frames_mapM {as : List α} (h : ∀ a, (f a).Frames) : (as.mapM f).Frames := by
  induction as with
  | nil => exact frames_pure _
  | cons a as ih =>
    rw [List.mapM_cons]
    exact (h a).bind fun _ => ih.bind fun _ => frames_pure _

theorem Frames.spares (hx : x.Frames) : Spares n x := fun b hb => (hx b).spares hb

theorem Spares.bind (hx : Spares n x) (hf : ∀ a, Spares n (f a)) : Spares n (x >>= f) := by
  intro b hb
  rcases run_bind_cases x f b with ⟨a, -, he⟩ | he
  · exact he ▸ (hx b hb).trans (hf a _ (hx b hb).owns)
  · exact he ▸ hx b hb

theorem spares_foldlM {g : β → α → Resolve β} {as : List α} (h : ∀ c a, Spares n (g c a)) (c : β) :
    Spares n (as.foldlM g c) := by
  induction as generalizing c with
  | nil => exact (frames_pure c).spares
  | cons a as ih =>
    rw [List.foldlM_cons]
    exact (h c a).bind fun c' => ih c'

theorem frames_scanning (r : Except Fault α) : Frames (scanning clause r) := frames_lift _

theorem frames_lookup? (name : String) : Frames (lookup? name) := fun b => .refl b

theorem frames_lookup (name : String) : Frames (lookup clause name) := by
  refine (frames_lookup? name).bind fun id? => ?_
  cases id? with
  | none => exact frames_throw _
  | some id => exact frames_pure id

theorem frames_componentOf (name : String) (id : AliasId) : Frames (componentOf clause name id) := by
  refine frames_get.bind fun b => ?_
  cases b.component? id with
  | none => exact frames_throw _
  | some component => exact frames_pure component

/-! ## Scopes -/

theorem spares_assignComponent (component : Component) : Spares n (assignComponent component) :=
  fun _ hb => hb.spares rfl (List.prefix_append _ _) (fun _ he => .inl he) hb.le_size

/-- An alias is bound to a new occurrence, unless the query has bound it already. -/
theorem spares_bindComponent (userAlias : String) (component : Component) :
    Spares n (bindComponent userAlias component) := by
  intro b hb
  obtain ⟨r, hr⟩ : ∃ r, b.resolver.bind userAlias component.table = r := ⟨_, rfl⟩
  have hrun : ((bindComponent userAlias component).run b).2 =
      ⟨r.2, (r.1, component) :: b.components⟩ := hr ▸ rfl
  rw [hrun]
  cases hl : b.resolver.lookupLocal? userAlias with
  | some known =>
    rw [Resolver.bind_known hl] at hr
    obtain rfl := hr
    exact hb.spares rfl (List.prefix_refl _) (fun _ he => .inl he)
      (hb.scope _ (AliasScope.mem_of_get? hl))
  | none =>
    rw [Resolver.bind_new hl] at hr
    obtain rfl := hr
    refine hb.spares rfl (List.prefix_append _ _) (fun e he => ?_) hb.le_size
    rcases List.mem_cons.1 he with rfl | he
    · exact .inr rfl
    · exact .inl he

/-- A scope of its own hides what a computation binds: the query that is entered owns the occurrences
to come, and when it is left the scopes are those before. -/
theorem frames_inScope (hx : ∀ n, Spares n x) : Frames (inScope x) := by
  intro b
  have hs := hx b.size { b with resolver := b.resolver.pushScope } ⟨Nat.le_refl _, nofun⟩
  rw [run_inScope]
  generalize (x.run { b with resolver := b.resolver.pushScope }).2 = b₁ at hs
  have houter : b₁.resolver.outer = b.resolver.scope :: b.resolver.outer := hs.outer
  have hpop : b₁.resolver.popScope =
      { b₁.resolver with scope := b.resolver.scope, outer := b.resolver.outer } := by
    rw [Resolver.popScope, houter]
  rw [hpop]
  exact ⟨rfl, rfl, hs.occurrences, hs.components⟩

end Resolve

open Resolve

variable {env : Surroundings} {scanner : Scanner} {subquery : ResolveSubquery} {clause : Clause}
  {bare : BareWords} {join : Option JoinScope} {param : Nat}

/-! ## Expressions -/

/-- The resolver of subqueries leaves the scopes and the occurrences made before alone. -/
def ResolveSubquery.Frames (subquery : ResolveSubquery) : Prop :=
  ∀ inner param clause, Resolve.Frames (subquery inner param clause)

theorem resolveReference_frames (w : Text) : (resolveReference clause join w).Frames := by
  refine (frames_lookup? _).bind fun id? => ?_
  cases id? with
  | none =>
    cases join with
    | none => exact frames_throw _
    | some scope =>
      dsimp only
      split
      · exact frames_throw _
      · exact frames_throw _
  | some id =>
    dsimp only
    split
    · exact frames_throw _
    · refine (frames_componentOf _ _).bind fun component => ?_
      split
      · exact frames_pure _
      · exact frames_throw _

theorem resolveBare_frames (w : Text) : (resolveBare bare w).Frames := by
  rw [resolveBare]
  split
  · exact frames_pure _
  · dsimp only
    split
    · exact frames_pure _
    · refine frames_get.bind fun b => ?_
      split
      · exact frames_pure _
      · exact frames_pure _

theorem Fragment.resolve_frames (hsub : subquery.Frames) (f : Fragment) :
    (f.resolve subquery clause bare join param).Frames := by
  cases f with
  | verbatim t => exact frames_pure _
  | placeholder => exact frames_pure _
  | named t => exact frames_throw _
  | subquery inner => exact (hsub _ _ _).bind fun _ => frames_pure _
  | word w called =>
    simp only [Fragment.resolve]
    split
    · exact (resolveReference_frames w).bind fun _ => frames_pure _
    · split
      · exact frames_pure _
      · exact (resolveBare_frames w).bind fun _ => frames_pure _

theorem resolveFragments_frames (hsub : subquery.Frames) (fs : List Fragment) :
    (resolveFragments scanner subquery clause bare join param fs).Frames := by
  induction fs generalizing param with
  | nil => exact frames_pure _
  | cons f fs ih => exact (f.resolve_frames hsub).bind fun _ => ih.bind fun _ => frames_pure _

theorem ResolveSubquery.Frames.resolveExpr (hsub : subquery.Frames) (t : Text) :
    (resolveExpr scanner subquery clause bare join param t).Frames :=
  (frames_scanning _).bind fun _ => (resolveFragments_frames hsub _).bind fun _ => frames_pure _

/-! ## Clauses -/

theorem resolveFields_frames (graph : JoinGraph) (t : Text) : (resolveFields graph t).Frames := by
  rw [resolveFields]
  split
  · exact (frames_lookup _).bind fun _ => (frames_componentOf _ _).bind fun _ => frames_pure _
  · split
    · refine (frames_lookup _).bind fun _ => (frames_componentOf _ _).bind fun _ => ?_
      split
      · exact frames_pure _
      · exact frames_throw _
    · split
      · exact frames_pure _
      · exact frames_pure _
    · exact frames_pure _

theorem resolveSelectItem_frames (hsub : subquery.Frames) (graph : JoinGraph) (ordinal : Nat)
    (i : Item) : (resolveSelectItem env subquery graph ordinal i).Frames := by
  refine (frames_scanning _).bind fun ⟨t, name⟩ => ?_
  dsimp only
  split
  · refine (frames_pure _).bind fun _ => ?_
    split
    · exact frames_pure _
    · exact (hsub.resolveExpr t).bind fun _ => frames_pure _
  · refine (resolveFields_frames graph t).bind fun _ => ?_
    split
    · exact frames_pure _
    · exact (hsub.resolveExpr t).bind fun _ => frames_pure _

theorem resolveSelectItems_frames (hsub : subquery.Frames) (graph : JoinGraph) (ordinal : Nat)
    (is : List Item) : (resolveSelectItems env subquery graph ordinal is).Frames := by
  induction is generalizing ordinal with
  | nil => exact frames_pure _
  | cons i is ih =>
    exact (resolveSelectItem_frames hsub graph ordinal i).bind fun _ =>
      (ih _).bind fun _ => frames_pure _

theorem resolveSelect_frames (hsub : subquery.Frames) (graph : JoinGraph) (g? : Option Segment) :
    (resolveSelect env subquery graph param g?).Frames := by
  cases g? with
  | none => exact frames_pure _
  | some g => exact (frames_lift _).bind fun is => resolveSelectItems_frames hsub graph 0 is

theorem resolveCondition_frames (hsub : subquery.Frames) (g? : Option Segment) :
    (resolveCondition env subquery clause bare param g?).Frames := by
  cases g? with
  | none => exact frames_pure _
  | some g => exact (hsub.resolveExpr g.text).map

theorem resolveList_frames {f : Item → Resolve α} (hf : ∀ i, (f i).Frames) (g? : Option Segment) :
    (resolveList env clause param f g?).Frames := by
  cases g? with
  | none => exact frames_pure _
  | some g => exact (frames_lift _).bind fun is => frames_mapM hf

theorem resolveOrderItem_frames (hsub : subquery.Frames) (implicit : Bool) (i : Item) :
    (resolveOrderItem env subquery bare implicit i).Frames :=
  (frames_scanning _).bind fun ⟨t, _⟩ => (hsub.resolveExpr t).bind fun _ => frames_pure _

theorem resolveClauses_frames (hsub : subquery.Frames) (graph : JoinGraph) (q : ClauseTexts) :
    (resolveClauses env subquery graph param q).Frames := by
  refine (resolveSelect_frames hsub graph _).bind fun _ => ?_
  refine (resolveCondition_frames hsub _).bind fun _ => ?_
  refine (resolveList_frames (fun i => hsub.resolveExpr i.text) _).bind fun _ => ?_
  refine (resolveCondition_frames hsub _).bind fun _ => ?_
  exact (resolveList_frames (resolveOrderItem_frames hsub false) _).bind fun _ => frames_pure _

/-! ## Joins -/

theorem resolveIndexColumn_frames (userAlias : String) (id : AliasId) (t : Text) :
    (resolveIndexColumn userAlias id t).Frames := by
  rw [resolveIndexColumn]
  split
  · refine (frames_componentOf _ _).bind fun component => ?_
    split
    · exact frames_pure _
    · exact frames_throw _
  · refine (frames_lookup? _).bind fun _ => ?_
    split
    · refine (frames_componentOf _ _).bind fun component => ?_
      split
      · exact frames_pure _
      · exact frames_throw _
    · exact frames_throw _
  · exact frames_throw _

theorem resolveRoot_spares (root : Source) : Spares n (resolveRoot env root) := by
  refine (frames_lift _).spares.bind fun component => ?_
  refine (spares_bindComponent _ _).bind fun id => Frames.spares ?_
  dsimp only
  split
  · exact (resolveIndexColumn_frames _ _ _).map.bind fun _ => frames_pure _
  · exact (frames_pure _).bind fun _ => frames_pure _

theorem resolveStart_frames (graph : JoinGraph) (declared : List String) (path head : String) :
    (resolveStart graph declared path head).Frames := by
  refine (frames_lookup? _).bind fun id? => ?_
  split
  · split
    · exact frames_pure _
    · split
      · exact frames_throw _
      · exact frames_throw _
  · split
    · exact frames_throw _
    · exact frames_throw _

theorem expandRelation_spares (graph : JoinGraph) (sourceId : AliasId) (source : Component)
    (r : Relation) (kind : JoinKind) (userAlias : String) :
    Spares n (expandRelation env graph sourceId source r kind userAlias) := by
  refine (frames_lift _).spares.bind fun expansion => ?_
  cases expansion with
  | direct target => exact (spares_bindComponent _ _).bind fun _ => (frames_pure _).spares
  | bridged target bridge sourceKey targetKey =>
    exact (spares_bindComponent _ _).bind fun _ =>
      (spares_assignComponent _).bind fun _ => (frames_pure _).spares

theorem resolveStep_spares (graph : JoinGraph) (kind : JoinKind) (head : String) (id : AliasId)
    (relation userAlias : String) :
    Spares n (resolveStep env graph kind head id relation userAlias) := by
  refine (frames_componentOf _ _).spares.bind fun component => ?_
  split
  · exact (frames_throw _).spares
  · exact expandRelation_spares _ _ _ _ _ _

theorem resolvePath_spares (kind : JoinKind) (head userAlias : String) (graph : JoinGraph)
    (id : AliasId) (walked : String) (path : List String) :
    Spares n (resolvePath env kind head userAlias graph id walked path) := by
  induction path generalizing graph id walked with
  | nil => exact (frames_pure _).spares
  | cons relation rest ih =>
    cases rest with
    | nil => exact resolveStep_spares _ _ _ _ _ _
    | cons next rest =>
      refine frames_get.spares.bind fun b => ?_
      split
      · exact ih _ _ _
      · exact (resolveStep_spares _ _ _ _ _ _).bind fun ⟨graph, next⟩ => ih _ _ _

theorem resolveJoin_spares (hsub : subquery.Frames) (declared : List String) (graph : JoinGraph)
    (j : Joined) : Spares n (resolveJoin env subquery param declared graph j) := by
  refine (resolveStart_frames _ _ _ _).spares.bind fun start => frames_get.spares.bind fun b => ?_
  split
  · exact (frames_throw _).spares
  · refine (resolvePath_spares _ _ _ _ _ _ _).bind fun ⟨graph, id⟩ => Frames.spares ?_
    dsimp only
    split
    · refine (frames_pure _).bind fun graph => ?_
      split
      · exact frames_pure _
      · exact (resolveIndexColumn_frames _ _ _).bind fun _ => frames_pure _
    · refine (hsub.resolveExpr _).bind fun _ => (frames_pure _).bind fun graph => ?_
      split
      · exact frames_pure _
      · exact (resolveIndexColumn_frames _ _ _).bind fun _ => frames_pure _

theorem resolveFrom_spares (hsub : subquery.Frames) (f : FromList) :
    Spares n (resolveFrom env subquery param f) :=
  (resolveRoot_spares f.root).bind fun graph =>
    spares_foldlM (fun graph j => resolveJoin_spares hsub f.aliases graph j) graph

/-! ## Queries -/

theorem resolveQuery_spares (hsub : subquery.Frames) (q : Query) :
    Spares n (resolveQuery env subquery param q) :=
  (resolveFrom_spares hsub q.source).bind fun graph =>
    ((resolveClauses_frames hsub graph q.toClauseTexts).bind fun _ => frames_pure _).spares

theorem resolveSubquery_frames (env : Surroundings) (levels : Nat) :
    (resolveSubquery env levels).Frames := by
  induction levels with
  | zero => exact fun _ _ _ => frames_throw _
  | succ levels ih =>
    intro inner param clause
    refine (frames_lift _).bind fun q => ?_
    refine (frames_inScope fun n => resolveQuery_spares ih q).bind fun ⟨graph, clauses⟩ => ?_
    exact frames_get.bind fun b => frames_pure _

/-- Resolving an expression leaves the scopes and the depth as they are, whether it succeeds or
fails, in it or in a subquery at any depth: the occurrences made before keep their names, tables and
components, every alias stands for what it stood for, and no alias of a subquery can be seen after
it. -/
theorem resolveExpr_leaves (env : Surroundings) (levels : Nat) (clause : Clause) (bare : BareWords)
    (join : Option JoinScope) (param : Nat) (t : Text) (b : Bindings) :
    let x := resolveExpr env.config.scanner (resolveSubquery env levels) clause bare join param t
    let after := (x.run b).2
    b.Frames after ∧ after.depth = b.depth ∧ after.Sees = b.Sees ∧
      ∀ name, after.resolver.lookup? name = b.resolver.lookup? name := by
  intro x after
  have h : b.Frames after := (resolveSubquery_frames env levels).resolveExpr t b
  exact ⟨h, congrArg List.length h.outer, h.sees_eq, h.lookup?⟩

end ObjectQuery
