import ObjectQuery.Proofs.Query.Faults
import ObjectQuery.Proofs.Query.Nesting
import ObjectQuery.Proofs.Resolve.Outcomes
import ObjectQuery.Proofs.Scope.Plan

/-! # What a resolution fails for

Against a schema in which every relation leads to components (`Surroundings.Complete`), a query
fails for what is wrong with the query, or because a `FROM` clause in it starts with a component that
the schema lacks. Throughout, the component of every occurrence is known (`Bindings.Informed`), so
whatever an alias stands for has one.

* `Resolve.Safe`: the computation is followed to such an end;
* `resolveExpr_safe`: expressions;
* `resolveFrom_safe`, `resolveClauses_safe`: the clauses of a query. -/

namespace ObjectQuery

open Resolve

variable {env : Surroundings} {N : QueryError → Prop} {subquery : ResolveSubquery} {α : Type}
  {clause : Clause} {bare : BareWords} {join : Option JoinScope} {param : Nat} {b b' : Bindings}
  {T t u inner : Text} {id lo : AliasId} {userAlias : String} {component : Component}
  {graph g g' : JoinGraph} {scopes : List AliasScope} {kind : JoinKind} {head relation : String}

/-! ## Errors -/

/-- The error is about the query, not about components that the schema lacks. -/
def QueryError.OfQuery : QueryError → Prop
  | malformed .. | unknownRelation .. | unknownAlias .. | unknownField .. | unknownColumn ..
  | ambiguousJoin .. | parameterMismatch .. => True
  | unknownComponent .. | metadata .. => False

/-- The error is that of a component which the schema lacks, and with which the `FROM` clause of the
text starts. -/
def Surroundings.Misses (env : Surroundings) (t : Text) (e : QueryError) : Prop :=
  ∃ q name, Query.parse env.config.scanner t = .ok q ∧ q.source.root.path = [name] ∧
    env.describe .from name = .error e

/-- Every relation of a component leads to components. -/
def Surroundings.Complete (env : Surroundings) : Prop :=
  ∀ c, env.Describes c → ∀ r ∈ c.relations, ∃ x, Expansion.ofRelation env c r = .ok x

/-! ## Parts of a text -/

/-- The second text stands somewhere in the first. -/
def Scanner.HasPart (s : Scanner) (t u : Text) : Prop := ∃ pos param, s.Stands t pos param u

namespace Scanner.HasPart

variable {s : Scanner}

theorem refl (h : s.Balanced t) : s.HasPart t t := ⟨0, 0, .refl h⟩

theorem trans {v : Text} (h : s.HasPart t u) (h' : s.HasPart u v) : s.HasPart t v := by
  obtain ⟨pos, param, h⟩ := h
  obtain ⟨pos', param', h'⟩ := h'
  exact ⟨_, _, h.trans h'⟩

theorem of_lies {base : Nat} {g : Segment} (h : g.Lies s base t) : s.HasPart t g.text := by
  obtain ⟨pos, param, hs, -⟩ := h
  exact ⟨pos, param, hs⟩

theorem of_core (h : Item.Core s t u) : s.HasPart t u := by
  obtain ⟨pos, hs⟩ := h.stands
  exact ⟨pos, 0, hs⟩

theorem of_items {g : Segment} {items : List Item}
    (h : segmentItems s clause param g = .ok items) : ∀ i ∈ items, s.HasPart g.text i.text := by
  intro i hi
  obtain ⟨-, hlies, -⟩ := segmentItems_spec h
  exact of_lies (hlies i hi)

theorem nested (h : s.HasPart t u) (hm : .subquery inner ∈ Fragment.ofText s u) :
    s.HasPart t inner := by
  obtain ⟨pos, param, hu⟩ := h
  obtain ⟨l, r, rfl, hl, hinner, -⟩ := Fragment.exists_of_subquery_mem hu.balanced.run hm
  have hstands : s.Stands (l ++ '(' :: (inner ++ ')' :: r)) (l ++ ['(']).length
      (s.count (l ++ ['('])) inner := by
    refine ⟨hinner, l ++ ['('], ')' :: r, by simp, rfl, ?_, rfl⟩
    rw [Quoting.run_append, hl]
    rfl
  exact ⟨_, _, hu.trans hstands⟩

end Scanner.HasPart

/-! ## Bindings -/

/-- What is known of bindings throughout: the component of every occurrence, and that aliases stand
for occurrences. -/
structure Bindings.Informed (env : Surroundings) (b : Bindings) : Prop extends b.Tidy env where
  seen : ∀ a ∈ b.Sees, a < b.size
  known : ∀ a < b.size, (b.component? a).isSome = true

namespace Bindings.Informed

theorem empty : Bindings.Informed env {} := by
  refine ⟨.empty, fun a ha => ?_, nofun⟩
  obtain ⟨scope, hscope, name, hmem⟩ := ha
  rw [List.mem_singleton.1 hscope] at hmem
  cases hmem

/-- Whatever an alias stands for has a component. -/
theorem lookup {name : String} (hb : b.Informed env) (h : b.resolver.lookup? name = some id) :
    (b.component? id).isSome = true :=
  hb.known id (hb.seen id (sees_of_lookup? h))

theorem ofGraph (hb : b.Informed env) (hg : g.Over env scopes lo b) (hid : id ∈ g.aliases) :
    (b.component? id).isSome = true :=
  hb.known id (hg.ids id hid).2

/-- An occurrence that is joined, and its component. -/
theorem binds (hb : b.Informed env) (h : b.Binds env id b')
    (hcomponents : b'.components = (id, component) :: b.components)
    (hnew : ∀ a < b'.size, a < b.size ∨ a = id) : b'.Informed env := by
  have hid : id < b'.size := by
    rcases h.id with ⟨name, hmem⟩ | ⟨-, hlt⟩
    · exact (hb.seen id ⟨_, List.mem_cons_self, name, hmem⟩).trans_le h.size_le
    · exact hlt
  refine ⟨h.tidy, fun a ha => ?_, fun a ha => ?_⟩
  · obtain ⟨scope, hscope, name, hmem⟩ := ha
    rcases List.mem_cons.1 hscope with rfl | hscope
    · rcases h.scope _ hmem with hmem | rfl
      · exact (hb.seen a ⟨_, List.mem_cons_self, name, hmem⟩).trans_le h.size_le
      · exact hid
    · rw [h.outer_eq] at hscope
      exact (hb.seen a ⟨_, List.mem_cons_of_mem _ hscope, name, hmem⟩).trans_le h.size_le
  · obtain ⟨resolver, components⟩ := b'
    cases hcomponents
    rcases hnew a ha with ha | rfl
    · exact b.knownIn_cons resolver id component a (hb.known a ha)
    · rw [component?_cons, Option.isSome_some]

theorem bindComponent (hb : b.Informed env) (hc : env.Describes component) :
    Bindings.Informed env ((Resolve.bindComponent userAlias component).run b).2 := by
  apply hb.binds (bindComponent_binds hb.toTidy hc rfl) rfl
  intro a ha
  change a < (b.resolver.bind userAlias component.table).2.occurrences.length at ha
  change a < b.resolver.occurrences.length ∨ a = (b.resolver.bind userAlias component.table).1
  cases hl : b.resolver.lookupLocal? userAlias with
  | some known =>
    rw [Resolver.bind_known hl] at ha
    exact .inl ha
  | none =>
    rw [Resolver.bind_new hl] at ha ⊢
    exact Nat.lt_or_eq_of_le (Nat.le_of_lt_succ (ha.trans_eq (b.resolver.length_assign _)))

theorem assignComponent (hb : b.Informed env) (hc : env.Describes component) :
    Bindings.Informed env ((Resolve.assignComponent component).run b).2 := by
  apply hb.binds (assignComponent_binds hb.toTidy hc rfl) rfl
  intro a ha
  exact Nat.lt_or_eq_of_le (Nat.le_of_lt_succ (ha.trans_eq (b.resolver.length_assign _)))

theorem pushScope (hb : b.Informed env) :
    Bindings.Informed env { b with resolver := b.resolver.pushScope } := by
  refine ⟨hb.toTidy.pushScope, fun a ha => ?_, hb.known⟩
  obtain ⟨scope, hscope, name, hmem⟩ := ha
  rcases List.mem_cons.1 hscope with rfl | hscope
  · cases hmem
  · exact hb.seen a ⟨scope, hscope, name, hmem⟩

theorem popScope (hb : b.Informed env) :
    Bindings.Informed env { b with resolver := b.resolver.popScope } := by
  cases houter : b.resolver.outer with
  | nil =>
    rw [Resolver.popScope, houter]
    exact hb
  | cons scope outer =>
    rw [Resolver.popScope, houter]
    refine ⟨⟨hb.described, hb.distinct.nodup, hb.distinct.covers⟩, fun a ha => ?_, hb.known⟩
    obtain ⟨scope', hscope, name, hmem⟩ := ha
    exact hb.seen a ⟨scope', List.mem_cons_of_mem _ (houter ▸ hscope), name, hmem⟩

end Bindings.Informed

/-! ## Steps -/

/-- The computation keeps the bindings informed, and fails for what is wrong with a query or with an
error in `N`. -/
def Resolve.Safe (env : Surroundings) (N : QueryError → Prop) (b : Bindings) (x : Resolve α) :
    Prop :=
  Stays (Bindings.Informed env) (fun e => e.OfQuery ∨ N e) b x

/-- The resolver of subqueries is safe for the subqueries in a text. -/
def ResolveSubquery.SafeIn (subquery : ResolveSubquery) (env : Surroundings)
    (N : QueryError → Prop) (T : Text) : Prop :=
  ∀ u inner param clause b, env.config.scanner.HasPart T u →
    .subquery inner ∈ Fragment.ofText env.config.scanner u → b.Informed env →
    Safe env N b (subquery inner param clause)

namespace Resolve

variable {β : Type} {x : Resolve α} {f : α → Resolve β} {a : α} {e : QueryError}

theorem Safe.bind (hx : Safe env N b x)
    (hf : ∀ a b', b'.Informed env → b.KnownIn b' → x.Runs b a b' → Safe env N b' (f a)) :
    Safe env N b (x >>= f) := by
  apply Stays.bind hx
  intro a b' hr
  obtain ⟨hb', hk⟩ := Stays.of_runs hx hr
  exact hf a b' hb' hk hr

theorem safe_pure (hb : b.Informed env) : Safe env N b (pure a : Resolve α) := stays_pure hb

theorem Safe.bind_pure {g : α → β} (hx : Safe env N b x) :
    Safe env N b (x >>= fun a => pure (g a)) := Stays.bind_pure hx

theorem safe_throw (hb : b.Informed env) (he : e.OfQuery) : Safe env N b (throw e : Resolve α) :=
  stays_throw hb (.inl he)

theorem safe_malformed {fault : SyntaxFault} (hb : b.Informed env) :
    Safe env N b (malformed clause fault : Resolve α) := safe_throw hb trivial

theorem safe_lift {r : Except QueryError α} (hb : b.Informed env) (hr : FailsInForm r) :
    Safe env N b (ExceptT.mk (pure r)) := by
  apply Stays.outcome hb
  intro e he
  obtain ⟨clause, fault, rfl⟩ := hr e he
  exact .inl trivial

theorem safe_scanning {r : Except Fault α} (hb : b.Informed env) :
    Safe env N b (scanning clause r) := safe_lift hb failsInForm_inClause

theorem safe_lookup {name : String} (hb : b.Informed env) :
    Safe env N b (lookup clause name) := by
  apply Safe.bind (stays_lookup? hb)
  intro id? b' hb' _ _
  cases id? with
  | some id => exact safe_pure hb'
  | none => exact safe_throw hb' trivial

end Resolve

/-! ## Expressions -/

theorem resolveReference_safe {w : Text} (hb : b.Informed env) :
    Safe env N b (resolveReference clause join w) := by
  apply Safe.bind (stays_lookup? hb)
  intro id? b' _ _ hr
  obtain ⟨hl, rfl⟩ := runs_lookup?.1 hr
  cases id? with
  | none =>
    cases join with
    | none => exact safe_throw hb trivial
    | some scope =>
      dsimp only
      split <;> exact safe_throw hb trivial
  | some id =>
    dsimp only
    split
    · exact safe_throw hb trivial
    · apply Safe.bind (stays_componentOf hb (hb.lookup hl))
      intro c b' hb' _ _
      split
      · exact safe_pure hb'
      · exact safe_throw hb' trivial

theorem resolveBare_safe {w : Text} (hb : b.Informed env)
    (hbare : ∀ id ∈ bare.default, (b.component? id).isSome = true) :
    Safe env N b (resolveBare bare w) := by
  rw [resolveBare]
  split
  · exact safe_pure hb
  · dsimp only
    split
    · exact safe_pure hb
    · cases hid : bare.default with
      | none => exact .aliases hb (fun _ _ => rfl) (safe_pure hb)
      | some id =>
        refine .component hb (hbare id hid) (fun b' hb' => ?_) ?_
        · simp only [Option.bind_eq_bind, Option.bind_some, hb']
        · split <;> exact safe_pure hb

theorem Fragment.resolve_safe {f : Fragment} (hb : b.Informed env)
    (hbare : ∀ id ∈ bare.default, (b.component? id).isSome = true)
    (hsub : ∀ inner, f = .subquery inner → Safe env N b (subquery inner param clause)) :
    Safe env N b (f.resolve subquery clause bare join param) := by
  cases f with
  | verbatim t => exact safe_pure hb
  | placeholder => exact safe_pure hb
  | named t => exact safe_malformed hb
  | subquery inner =>
    exact (hsub inner rfl).bind_pure
  | word w called =>
    rw [Fragment.resolve]
    split
    · exact (resolveReference_safe hb).bind_pure
    · split
      · exact safe_pure hb
      · exact (resolveBare_safe hb hbare).bind_pure

theorem resolveFragments_safe {s : Scanner} {fs : List Fragment} (hb : b.Informed env)
    (hbare : ∀ id ∈ bare.default, (b.component? id).isSome = true)
    (hsub : ∀ inner, .subquery inner ∈ fs → ∀ param clause b, b.Informed env →
      Safe env N b (subquery inner param clause)) :
    Safe env N b (resolveFragments s subquery clause bare join param fs) := by
  induction fs generalizing param b with
  | nil => exact safe_pure hb
  | cons f fs ih =>
    have hf : Safe env N b (f.resolve subquery clause bare join param) := by
      apply Fragment.resolve_safe hb hbare
      rintro inner rfl
      exact hsub inner List.mem_cons_self _ _ _ hb
    apply Safe.bind hf
    intro pieces b' hb' hk _
    have hrest : Safe env N b' (resolveFragments s subquery clause bare join
        (param + f.placeholders s) fs) :=
      ih hb' (fun id hid => hk id (hbare id hid))
        fun inner hm => hsub inner (List.mem_cons_of_mem _ hm)
    exact hrest.bind_pure

theorem resolveExpr_safe (hsub : subquery.SafeIn env N T) (ht : env.config.scanner.HasPart T t)
    (hb : b.Informed env) (hbare : ∀ id ∈ bare.default, (b.component? id).isSome = true) :
    Safe env N b (resolveExpr env.config.scanner subquery clause bare join param t) := by
  apply Safe.bind (safe_scanning hb)
  intro _ b₁ hb₁ hk _
  have hfragments : Safe env N b₁ (resolveFragments env.config.scanner subquery clause bare join
      param (Fragment.ofText env.config.scanner t)) :=
    resolveFragments_safe hb₁ (fun id hid => hk id (hbare id hid))
      fun inner hm param clause b hb => hsub t inner param clause b ht hm hb
  exact hfragments.bind_pure

/-! ## Joins -/

theorem resolveIndexColumn_safe (hb : b.Informed env) (hid : (b.component? id).isSome = true) :
    Safe env N b (resolveIndexColumn userAlias id t) := by
  rw [resolveIndexColumn]
  split
  · apply Safe.bind (stays_componentOf hb hid)
    intro c b' hb' _ _
    split
    · exact safe_pure hb'
    · exact safe_throw hb' trivial
  · apply Safe.bind (stays_lookup? hb)
    intro owner b₁ hb₁ hk _
    split
    · apply Safe.bind (stays_componentOf hb₁ (hk id hid))
      intro c b' hb' _ _
      split
      · exact safe_pure hb'
      · exact safe_throw hb' trivial
    · exact safe_throw hb₁ trivial
  · exact safe_malformed hb

theorem safe_bindComponent (hb : b.Informed env) (hc : env.Describes component) :
    Safe env N b (bindComponent userAlias component) :=
  .bound hb (hb.bindComponent hc)

theorem safe_assignComponent (hb : b.Informed env) (hc : env.Describes component) :
    Safe env N b (assignComponent component) :=
  .assigned hb (hb.assignComponent hc)

theorem resolveRoot_safe {root : Source} (hb : b.Informed env)
    (hN : ∀ e, env.describe .from (root.path.headD "") = .error e → N e) :
    Safe env N b (resolveRoot env root) := by
  have hdescribe : Safe env N b (ExceptT.mk (pure (env.describe .from (root.path.headD "")))) :=
    .outcome hb fun e he => .inr (hN e he)
  apply Safe.bind hdescribe
  intro c b₁ hb₁ _ hr
  obtain ⟨hc, rfl⟩ := runs_lift.1 hr
  apply Safe.bind (safe_bindComponent hb₁ (Surroundings.describe_eq_ok hc))
  intro id b₂ hb₂ _ hr
  obtain ⟨-, rfl⟩ := runs_bindComponent.1 hr
  cases root.indexBy with
  | none => exact Safe.bind (safe_pure hb₂) fun _ _ hb' _ _ => safe_pure hb'
  | some text =>
    have hindex : Safe env N _ (resolveIndexColumn root.effectiveAlias id text) :=
      resolveIndexColumn_safe hb₂ (by rw [Bindings.component?_cons, Option.isSome_some])
    exact hindex.map.bind_pure

theorem expandRelation_safe {source : AliasId} {r : Relation} (henv : env.Complete)
    (hb : b.Informed env) (hc : env.Describes component) (hr : r ∈ component.relations) :
    Safe env N b (expandRelation env g source component r kind userAlias) := by
  obtain ⟨x, hx⟩ := henv component hc r hr
  have hlift : Safe env N b (ExceptT.mk (pure (Expansion.ofRelation env component r))) := by
    apply Stays.outcome hb
    rw [hx]
    exact Except.error_of_ok
  apply Safe.bind hlift
  intro x b₁ hb₁ _ hr
  obtain ⟨hx, rfl⟩ := runs_lift.1 hr
  have hx := Expansion.ofRelation_sound hc hx
  cases x with
  | direct target =>
    exact (safe_bindComponent hb₁ hx).bind_pure
  | bridged target bridge sourceKey targetKey =>
    obtain ⟨ht, hbridge, -, -⟩ := hx
    apply Safe.bind (safe_bindComponent hb₁ ht)
    intro id b₂ hb₂ _ _
    exact (safe_assignComponent hb₂ hbridge).bind_pure

theorem resolveStep_safe (henv : env.Complete) (hb : b.Informed env)
    (hid : (b.component? id).isSome = true) :
    Safe env N b (resolveStep env g kind head id relation userAlias) := by
  apply Safe.bind (stays_componentOf hb hid)
  intro c b₁ hb₁ _ hr
  obtain ⟨hc, rfl⟩ := runs_componentOf.1 hr
  split
  · exact safe_throw hb₁ trivial
  · rename_i r hr
    exact expandRelation_safe henv hb₁ (hb₁.describes hc) (List.mem_of_find?_eq_some hr)

theorem resolvePath_safe {walked : String} {relations : List String} (henv : env.Complete)
    (hb : b.Informed env) (hg : g.Over env scopes lo b) (hid : id ∈ g.aliases) :
    Safe env N b (resolvePath env kind head userAlias g id walked relations) := by
  induction relations generalizing g id walked b with
  | nil => exact safe_pure hb
  | cons relation rest ih =>
    cases rest with
    | nil => exact resolveStep_safe henv hb (hb.ofGraph hg hid)
    | cons next rest =>
      refine .aliases hb (fun b' hb' => ?_) ?_
      · simp only [hb']
      · cases hk : b.resolver.lookupLocal? (walked ++ "." ++ relation) with
        | some known => exact ih hb hg (hg.scope _ (Bindings.mem_scope_of_lookupLocal? hk))
        | none =>
          apply Safe.bind (resolveStep_safe henv hb (hb.ofGraph hg hid))
          rintro ⟨g₁, id₁⟩ b₁ hb₁ _ hstep
          obtain ⟨hg₁, hid₁⟩ := resolveStep_over hg hid hstep
          exact ih hb₁ hg₁ hid₁

theorem resolveStart_safe {declared : List String} {path : String} (hb : b.Informed env) :
    Safe env N b (resolveStart g declared path head) := by
  have hunknown (b : Bindings) (hb : b.Informed env) : Safe env N b (if declared.contains head then
      throw (.ambiguousJoin .join path head) else throw (.unknownAlias .join head) :
        Resolve AliasId) := by
    split <;> exact safe_throw hb trivial
  apply Safe.bind (stays_lookup? hb)
  intro id? b' hb' _ _
  split
  · split
    · exact safe_pure hb'
    · exact hunknown b' hb'
  · exact hunknown b' hb'

theorem indexBy_safe {index : Option Text} (hb : b.Informed env)
    (hid : (b.component? id).isSome = true) :
    Safe env N b (match index with
      | none => return g
      | some text => do return g.indexBy id (← resolveIndexColumn userAlias id text)) := by
  cases index with
  | none => exact safe_pure hb
  | some text =>
    exact (resolveIndexColumn_safe hb hid).bind_pure

theorem resolveJoin_safe {declared : List String} {j : Joined} (henv : env.Complete)
    (hsub : subquery.SafeIn env N T) (hb : b.Informed env) (hg : g.Over env scopes lo b)
    (hj : ∀ k ∈ j.condition, env.config.scanner.HasPart T k.segment.text) :
    Safe env N b (resolveJoin env subquery param declared g j) := by
  apply Safe.bind (resolveStart_safe hb)
  intro start b₁ hb₁ _ hr
  obtain ⟨rfl, -, hstart⟩ := runs_resolveStart hr
  rw [JoinGraph.contains_iff] at hstart
  refine .aliases hb (fun b' hb' => ?_) ?_
  · simp only [hb']
  split
  · exact safe_malformed hb
  apply Safe.bind (resolvePath_safe henv hb hg hstart)
  rintro ⟨g₁, id⟩ b₁ hb₁ _ hr
  obtain ⟨hg₁, hid⟩ := resolvePath_over hg hstart hr
  have hknown := hb₁.ofGraph hg₁ hid
  cases hk : j.condition with
  | none =>
    apply Safe.bind (safe_pure hb₁)
    intro g₂ b₂ hb₂ hk₂ _
    exact indexBy_safe hb₂ (hk₂ id hknown)
  | some k =>
    apply Safe.bind (resolveExpr_safe hsub (hj k hk) hb₁ (by rintro _ ⟨⟩))
    intro e b₂ hb₂ hk₂ _
    apply Safe.bind (safe_pure hb₂)
    intro g₂ b₃ hb₃ hk₃ _
    exact indexBy_safe hb₃ (hk₃ id (hk₂ id hknown))

theorem resolveFrom_safe {f : FromList} (henv : env.Complete) (hnests : subquery.Nests env)
    (hsub : subquery.SafeIn env N T) (hb : b.Informed env) (hscope : b.resolver.scope = [])
    (hN : ∀ e, env.describe .from (f.root.path.headD "") = .error e → N e)
    (hf : ∀ j ∈ f.joins, ∀ k ∈ j.condition, env.config.scanner.HasPart T k.segment.text) :
    Safe env N b (resolveFrom env subquery param f) := by
  apply Safe.bind (resolveRoot_safe hb hN)
  intro g b₁ hb₁ _ hr
  have hg := resolveRoot_over hb.toTidy hscope hr
  apply stays_foldlM (P := fun g b' => g.Over env b.resolver.outer b.size b') hb₁ hg
  intro j hj g b' hb' hg
  refine ⟨resolveJoin_safe henv hsub hb' hg (hf j hj), fun g' b'' hr => ?_⟩
  exact resolveJoin_over hnests hg hr

/-! ## Clauses -/

theorem resolveFields_safe (hb : b.Informed env) : Safe env N b (resolveFields graph t) := by
  rw [resolveFields]
  split
  · apply Safe.bind (safe_lookup hb)
    intro id b' hb' _ hr
    obtain ⟨hl, rfl⟩ := runs_lookup.1 hr
    exact (stays_componentOf hb' (hb'.lookup hl)).bind_pure
  · split
    · apply Safe.bind (safe_lookup hb)
      intro id b' hb' _ hr
      obtain ⟨hl, rfl⟩ := runs_lookup.1 hr
      apply Safe.bind (stays_componentOf hb' (hb'.lookup hl))
      intro c b' hb' _ _
      split
      · exact safe_pure hb'
      · exact safe_throw hb' trivial
    · split <;> exact safe_pure hb
    · exact safe_pure hb

theorem resolveSelectItem_safe {ordinal : Nat} {i : Item} (hsub : subquery.SafeIn env N T)
    (hb : b.Informed env) (hi : env.config.scanner.HasPart T i.text) :
    Safe env N b (resolveSelectItem env subquery graph ordinal i) := by
  apply Safe.bind (safe_scanning hb)
  rintro ⟨t, name⟩ b₁ hb₁ _ hr
  obtain ⟨ht, -⟩ := runs_scanning.1 hr
  have ht : env.config.scanner.HasPart T t := hi.trans (.of_core (splitAlias_spec ht))
  -- what is no list of columns is an expression
  have hexpr (b : Bindings) (hb : b.Informed env) : Safe env N b (do
      let expr ← resolveExpr env.config.scanner subquery .select {} none i.param t
      return [SelectItem.expression (graph.ownerOf expr) ordinal expr name]) := by
    exact (resolveExpr_safe hsub ht hb (by rintro _ ⟨⟩)).bind_pure
  dsimp only
  split
  · apply Safe.bind (safe_pure hb₁)
    intro fields b₂ hb₂ _ _
    cases fields with
    | some fields => exact safe_pure hb₂
    | none => exact hexpr b₂ hb₂
  · apply Safe.bind (resolveFields_safe hb₁)
    intro fields b₂ hb₂ _ _
    cases fields with
    | some fields => exact safe_pure hb₂
    | none => exact hexpr b₂ hb₂

theorem resolveSelectItems_safe {ordinal : Nat} {is : List Item} (hsub : subquery.SafeIn env N T)
    (hb : b.Informed env) (his : ∀ i ∈ is, env.config.scanner.HasPart T i.text) :
    Safe env N b (resolveSelectItems env subquery graph ordinal is) := by
  induction is generalizing ordinal b with
  | nil => exact safe_pure hb
  | cons i is ih =>
    obtain ⟨hi, his⟩ := List.forall_mem_cons.1 his
    apply Safe.bind (resolveSelectItem_safe hsub hb hi)
    intro first b₁ hb₁ _ _
    exact (ih hb₁ his).bind_pure

theorem resolveSelect_safe {clause? : Option Segment} (hsub : subquery.SafeIn env N T)
    (hb : b.Informed env) (hs : ∀ g ∈ clause?, env.config.scanner.HasPart T g.text) :
    Safe env N b (resolveSelect env subquery graph param clause?) := by
  cases clause? with
  | none => exact safe_pure hb
  | some g =>
    apply Safe.bind (safe_lift hb segmentItems_failsInForm)
    intro is b₁ hb₁ _ hr
    obtain ⟨his, rfl⟩ := runs_lift.1 hr
    exact resolveSelectItems_safe hsub hb₁ fun i hi => (hs g rfl).trans (.of_items his i hi)

theorem resolveCondition_safe {clause? : Option Segment} (hsub : subquery.SafeIn env N T)
    (hb : b.Informed env) (hbare : ∀ id ∈ bare.default, (b.component? id).isSome = true)
    (hs : ∀ g ∈ clause?, env.config.scanner.HasPart T g.text) :
    Safe env N b (resolveCondition env subquery clause bare param clause?) := by
  cases clause? with
  | none => exact safe_pure hb
  | some g => exact (resolveExpr_safe hsub (hs g rfl) hb hbare).map

theorem resolveOrderItem_safe {implicit : Bool} {i : Item} (hsub : subquery.SafeIn env N T)
    (hb : b.Informed env) (hbare : ∀ id ∈ bare.default, (b.component? id).isSome = true)
    (hi : env.config.scanner.HasPart T i.text) :
    Safe env N b (resolveOrderItem env subquery bare implicit i) := by
  apply Safe.bind (safe_scanning hb)
  rintro ⟨t, direction⟩ b₁ hb₁ hk hr
  obtain ⟨ht, rfl⟩ := runs_scanning.1 hr
  obtain ⟨hcore, -⟩ := splitDirection_spec ht
  exact (resolveExpr_safe hsub (hi.trans (.of_core hcore)) hb₁ hbare).bind_pure

theorem resolveList_safe {f : Item → Resolve α} {clause? : Option Segment} (hb : b.Informed env)
    (hs : ∀ g ∈ clause?, env.config.scanner.HasPart T g.text)
    (hf : ∀ i b', b'.Informed env → b.KnownIn b' → env.config.scanner.HasPart T i.text →
      Safe env N b' (f i)) : Safe env N b (resolveList env clause param f clause?) := by
  cases clause? with
  | none => exact safe_pure hb
  | some g =>
    apply Safe.bind (safe_lift hb segmentItems_failsInForm)
    intro is b₁ hb₁ _ hr
    obtain ⟨his, rfl⟩ := runs_lift.1 hr
    apply stays_mapM hb₁
    intro i hi b' hb' hk
    exact hf i b' hb' hk ((hs g rfl).trans (.of_items his i hi))

/-- The texts of the clauses are parts of a text. -/
structure ClauseTexts.PartsOf (s : Scanner) (T : Text) (q : ClauseTexts) : Prop where
  select : ∀ g ∈ q.select, s.HasPart T g.text
  filter : ∀ g ∈ q.filter, s.HasPart T g.text
  groupBy : ∀ g ∈ q.groupBy, s.HasPart T g.text
  having : ∀ g ∈ q.having, s.HasPart T g.text
  orderBy : ∀ g ∈ q.orderBy, s.HasPart T g.text

theorem resolveClauses_safe {q : ClauseTexts} (hsub : subquery.SafeIn env N T)
    (hb : b.Informed env) (hroot : (b.component? graph.root.id).isSome = true)
    (hq : q.PartsOf env.config.scanner T) :
    Safe env N b (resolveClauses env subquery graph param q) := by
  apply Safe.bind (resolveSelect_safe hsub hb hq.select)
  intro select b₁ hb₁ hk₁ _
  have hbare {b' : Bindings} (hk : b₁.KnownIn b') (output? : String → Option (AliasId × Nat)) :
      ∀ id ∈ (BareWords.mk output? (some graph.root.id)).default,
        (b'.component? id).isSome = true := by
    rintro _ ⟨⟩
    exact hk _ (hk₁ _ hroot)
  apply Safe.bind (resolveCondition_safe hsub hb₁ (by rintro _ ⟨⟩) hq.filter)
  intro filter b₂ hb₂ hk₂ _
  refine Safe.bind (resolveList_safe hb₂ hq.groupBy fun i b' hb' hk hi =>
    resolveExpr_safe hsub hi hb' (hbare (hk₂.trans hk) _)) ?_
  intro groupBy b₃ hb₃ hk₃ _
  have hk₃ := hk₂.trans hk₃
  apply Safe.bind (resolveCondition_safe hsub hb₃ (hbare hk₃ _) hq.having)
  intro having b₄ hb₄ hk₄ _
  have hk₄ := hk₃.trans hk₄
  refine Safe.bind (resolveList_safe hb₄ hq.orderBy fun i b' hb' hk hi =>
    resolveOrderItem_safe hsub hb' (hbare (hk₄.trans hk) _) hi) ?_
  intro orderBy b₅ hb₅ _ _
  exact safe_pure hb₅

end ObjectQuery
