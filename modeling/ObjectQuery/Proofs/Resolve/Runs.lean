import ObjectQuery.Proofs.Success
import ObjectQuery.Resolve.State

/-! # Resolutions that succeed

`Resolve.Runs x b a b'` says that the computation `x` leads from the bindings `b` to the bindings
`b'` and yields `a`. Each operation of `Resolve` has a lemma that says when it does, so that a
computation is taken apart by rewriting with them. -/

namespace ObjectQuery

/-- The computation succeeds from the bindings `b`, with result `a` and bindings `b'`. -/
def Resolve.Runs (x : Resolve α) (b : Bindings) (a : α) (b' : Bindings) : Prop :=
  x.run b = (.ok a, b')

namespace Resolve

variable {α β : Type} {x : Resolve α} {f : α → Resolve β} {a a' : α} {c : β} {b b' : Bindings}

theorem runs_pure : (pure a : Resolve α).Runs b a' b' ↔ a = a' ∧ b = b' := by
  show (Except.ok a, b) = (Except.ok a', b') ↔ _
  simp

theorem runs_bind : (x >>= f).Runs b c b' ↔ ∃ a b₁, x.Runs b a b₁ ∧ (f a).Runs b₁ c b' := by
  unfold Runs
  show (match x.run b with | (r, b₁) => ExceptT.bindCont f r b₁) = _ ↔ _
  cases x.run b with
  | mk r b₁ =>
    cases r with
    | error e => exact ⟨nofun, nofun⟩
    | ok a =>
      constructor
      · exact fun h => ⟨a, b₁, rfl, h⟩
      · rintro ⟨_, _, ⟨⟩, h⟩
        exact h

theorem runs_map {g : α → β} : (g <$> x).Runs b c b' ↔ ∃ a, x.Runs b a b' ∧ g a = c := by
  rw [map_eq_pure_bind, runs_bind]
  simp only [runs_pure]
  constructor
  · rintro ⟨a, _, h, rfl, rfl⟩
    exact ⟨a, h, rfl⟩
  · rintro ⟨a, h, rfl⟩
    exact ⟨a, _, h, rfl, rfl⟩

theorem not_runs_throw {e : QueryError} : ¬ (throw e : Resolve α).Runs b a b' := nofun

theorem not_runs_malformed {clause : Clause} {fault : SyntaxFault} :
    ¬ (malformed clause fault : Resolve α).Runs b a b' := nofun

theorem runs_get {b₁ : Bindings} : (get : Resolve Bindings).Runs b b₁ b' ↔ b = b₁ ∧ b = b' := by
  show (Except.ok b, b) = (Except.ok b₁, b') ↔ _
  simp

/-- A result that does not depend on the bindings. -/
theorem runs_lift {r : Except QueryError α} :
    Runs (ExceptT.mk (pure r)) b a b' ↔ r = .ok a ∧ b = b' := by
  show (r, b) = (Except.ok a, b') ↔ _
  simp

theorem runs_scanning {clause : Clause} {r : Except Fault α} :
    (scanning clause r).Runs b a b' ↔ r = .ok a ∧ b = b' := by
  rw [scanning, runs_lift, Except.inClause_eq_ok]

theorem runs_onResolver {f : Resolver → α × Resolver} : (onResolver f).Runs b a b' ↔
    (f b.resolver).1 = a ∧ { b with resolver := (f b.resolver).2 } = b' := by
  show (Except.ok (f b.resolver).1, { b with resolver := (f b.resolver).2 }) =
    (Except.ok a, b') ↔ _
  simp

theorem runs_remember {id : AliasId} {component : Component} {u : Unit} :
    (remember id component).Runs b u b' ↔
      { b with components := (id, component) :: b.components } = b' := by
  show (Except.ok (), { b with components := (id, component) :: b.components }) =
    (Except.ok u, b') ↔ _
  simp

theorem runs_lookup? {name : String} {id? : Option AliasId} :
    (lookup? name).Runs b id? b' ↔ b.resolver.lookup? name = id? ∧ b = b' := by
  show (Except.ok (b.resolver.lookup? name), b) = (Except.ok id?, b') ↔ _
  simp

theorem runs_lookup {clause : Clause} {name : String} {id : AliasId} :
    (lookup clause name).Runs b id b' ↔ b.resolver.lookup? name = some id ∧ b = b' := by
  rw [lookup, runs_bind]
  simp only [runs_lookup?]
  constructor
  · rintro ⟨_, _, ⟨rfl, rfl⟩, h⟩
    cases hl : b.resolver.lookup? name with
    | none => rw [hl] at h; exact absurd h not_runs_throw
    | some id' =>
      rw [hl] at h
      obtain ⟨rfl, rfl⟩ := runs_pure.1 h
      exact ⟨rfl, rfl⟩
  · rintro ⟨h, rfl⟩
    exact ⟨_, _, ⟨h, rfl⟩, runs_pure.2 ⟨rfl, rfl⟩⟩

theorem runs_componentOf {clause : Clause} {name : String} {id : AliasId} {component : Component} :
    (componentOf clause name id).Runs b component b' ↔
      b.component? id = some component ∧ b = b' := by
  rw [componentOf, runs_bind]
  simp only [runs_get]
  constructor
  · rintro ⟨_, _, ⟨rfl, rfl⟩, h⟩
    cases hc : b.component? id with
    | none => rw [hc] at h; exact absurd h not_runs_throw
    | some component' =>
      rw [hc] at h
      obtain ⟨rfl, rfl⟩ := runs_pure.1 h
      exact ⟨rfl, rfl⟩
  · rintro ⟨h, rfl⟩
    refine ⟨_, _, ⟨rfl, rfl⟩, ?_⟩
    rw [h]
    exact runs_pure.2 ⟨rfl, rfl⟩

theorem runs_inScope : (inScope x).Runs b a b' ↔
    ∃ b₁, x.Runs { b with resolver := b.resolver.pushScope } a b₁ ∧
      { b₁ with resolver := b₁.resolver.popScope } = b' := by
  unfold Runs
  show (match x.run { b with resolver := b.resolver.pushScope } with
    | (r, b₁) => (r, { b₁ with resolver := b₁.resolver.popScope })) = _ ↔ _
  cases x.run { b with resolver := b.resolver.pushScope } with
  | mk r b₁ =>
    constructor
    · rintro ⟨⟩
      exact ⟨b₁, rfl, rfl⟩
    · rintro ⟨_, ⟨⟩, rfl⟩
      rfl

/-- What holds after a run, if it succeeds, is decided by running. -/
instance decidableExistsRuns {P : α → Bindings → Prop} [∀ a b', Decidable (P a b')] :
    Decidable (∃ a b', x.Runs b a b' ∧ P a b') :=
  match h : x.run b with
  | (.ok a, b') => decidable_of_iff (P a b')
    ⟨fun hp => ⟨a, b', h, hp⟩, fun ⟨_, _, hr, hp⟩ => by
      obtain ⟨⟨⟩, ⟨⟩⟩ := Prod.ext_iff.1 (h.symm.trans hr)
      exact hp⟩
  | (.error _, _) => isFalse fun ⟨_, _, hr, _⟩ => nomatch h.symm.trans hr

/-! ## Lists -/

theorem runs_mapM_nil {bs : List β} :
    ([].mapM f).Runs b bs b' ↔ bs = [] ∧ b = b' := by
  rw [List.mapM_nil, runs_pure, eq_comm]

theorem runs_mapM_cons {as : List α} {cs : List β} : ((a :: as).mapM f).Runs b cs b' ↔
    ∃ c b₁ cs', (f a).Runs b c b₁ ∧ (as.mapM f).Runs b₁ cs' b' ∧ cs = c :: cs' := by
  simp only [List.mapM_cons, runs_bind, runs_pure]
  constructor
  · rintro ⟨c, b₁, hc, cs', _, hcs, rfl, rfl⟩
    exact ⟨c, b₁, cs', hc, hcs, rfl⟩
  · rintro ⟨c, b₁, cs', hc, hcs, rfl⟩
    exact ⟨c, b₁, hc, cs', _, hcs, rfl, rfl⟩

theorem runs_foldlM_nil {g : β → α → Resolve β} {c₀ : β} :
    ([].foldlM g c₀).Runs b c b' ↔ c₀ = c ∧ b = b' := by
  rw [List.foldlM_nil, runs_pure]

theorem runs_foldlM_cons {g : β → α → Resolve β} {c₀ : β} {as : List α} :
    ((a :: as).foldlM g c₀).Runs b c b' ↔
      ∃ c₁ b₁, (g c₀ a).Runs b c₁ b₁ ∧ (as.foldlM g c₁).Runs b₁ c b' := by
  rw [List.foldlM_cons, runs_bind]

/-- What every step of a fold keeps holds at its end. -/
theorem runs_foldlM_keeps {g : β → α → Resolve β} {I : β → Bindings → Prop} {as : List α} {c₀ : β}
    (hg : ∀ a ∈ as, ∀ c b c' b', I c b → (g c a).Runs b c' b' → I c' b') (h₀ : I c₀ b)
    (h : (as.foldlM g c₀).Runs b c b') : I c b' := by
  induction as generalizing c₀ b with
  | nil =>
    obtain ⟨rfl, rfl⟩ := runs_foldlM_nil.1 h
    exact h₀
  | cons a as ih =>
    obtain ⟨ha, has⟩ := List.forall_mem_cons.1 hg
    obtain ⟨c₁, b₁, h1, h2⟩ := runs_foldlM_cons.1 h
    exact ih has (ha c₀ b c₁ b₁ h₀ h1) h2

end Resolve
end ObjectQuery
