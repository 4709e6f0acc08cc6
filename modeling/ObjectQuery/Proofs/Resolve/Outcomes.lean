import ObjectQuery.Proofs.Resolve.Runs

/-! # What a resolution goes through

`Resolve.Stays I E b x` follows the computation `x` from the bindings `b` step by step: the bindings
have the property `I` before and after every step, whether the computation succeeds or fails; it
fails with errors in `E` only; and whenever it asks for the component of an occurrence, there is one.

* `Resolve.Stays.stop`, `Resolve.Stays.error`: where the computation ends;
* `Resolve.Stays.run_pad`: components of further occurrences make no difference. -/

namespace ObjectQuery

/-- The bindings with components of further occurrences. -/
def Bindings.pad (b : Bindings) (extra : List (AliasId × Component)) : Bindings :=
  { b with components := b.components ++ extra }

/-- Occurrences whose components are known stay known. -/
def Bindings.KnownIn (b b' : Bindings) : Prop :=
  ∀ id, (b.component? id).isSome = true → (b'.component? id).isSome = true

theorem Bindings.KnownIn.refl (b : Bindings) : b.KnownIn b := fun _ h => h

theorem Bindings.KnownIn.trans {b b' b'' : Bindings} (h : b.KnownIn b') (h' : b'.KnownIn b'') :
    b.KnownIn b'' := fun id hid => h' id (h id hid)

theorem Bindings.component?_cons {r : Resolver} {id : AliasId} {c : Component}
    {components : List (AliasId × Component)} :
    Bindings.component? ⟨r, (id, c) :: components⟩ id = some c := by
  simp [Bindings.component?]

theorem Bindings.knownIn_cons (b : Bindings) (r : Resolver) (id : AliasId) (c : Component) :
    b.KnownIn ⟨r, (id, c) :: b.components⟩ := by
  intro id' h
  by_cases hid : id = id'
  · subst hid
    rw [Bindings.component?_cons, Option.isSome_some]
  · rw [Bindings.component?, List.find?_cons_of_neg (by simpa using hid)]
    exact h

theorem Bindings.component?_pad {b : Bindings} {extra : List (AliasId × Component)} {id : AliasId}
    (h : (b.component? id).isSome = true) : (b.pad extra).component? id = b.component? id := by
  rw [Bindings.component?, Option.isSome_map] at h
  obtain ⟨p, hp⟩ := Option.isSome_iff_exists.1 h
  rw [Bindings.component?, Bindings.component?, Bindings.pad, List.find?_append, hp, Option.some_or]

namespace Resolve

/-- The computation stays within `I` from the bindings `b` on, and fails with errors in `E`. -/
inductive Stays (I : Bindings → Prop) (E : QueryError → Prop) :
    {α : Type} → Bindings → Resolve α → Prop
  /-- A result or an error at once. -/
  | outcome {α : Type} {b : Bindings} {r : Except QueryError α} (hb : I b)
    (hr : ∀ e, r = .error e → E e) : Stays I E b (ExceptT.mk (pure r))
  | bind {α β : Type} {b : Bindings} {x : Resolve α} {f : α → Resolve β} (hx : Stays I E b x)
    (hf : ∀ a b', x.Runs b a b' → Stays I E b' (f a)) : Stays I E b (x >>= f)
  /-- What follows depends on the aliases alone. -/
  | aliases {α : Type} {b : Bindings} {f : Bindings → Resolve α} (hb : I b)
    (hf : ∀ b', b'.resolver = b.resolver → f b' = f b) (h : Stays I E b (f b)) :
    Stays I E b (get >>= f)
  /-- What follows depends on the component of an occurrence alone, and there is one. -/
  | component {α : Type} {b : Bindings} {f : Bindings → Resolve α} {id : AliasId} (hb : I b)
    (hid : (b.component? id).isSome = true)
    (hf : ∀ b', b'.component? id = b.component? id → f b' = f b) (h : Stays I E b (f b)) :
    Stays I E b (get >>= f)
  | bound {b : Bindings} {userAlias : String} {c : Component} (hb : I b)
    (h : I ((bindComponent userAlias c).run b).2) : Stays I E b (bindComponent userAlias c)
  | assigned {b : Bindings} {c : Component} (hb : I b) (h : I ((assignComponent c).run b).2) :
    Stays I E b (assignComponent c)
  /-- A scope is entered and left again, also after a failure. -/
  | within {α : Type} {b : Bindings} {x : Resolve α} (hb : I b)
    (hx : Stays I E { b with resolver := b.resolver.pushScope } x)
    (h : I ((inScope x).run b).2) : Stays I E b (inScope x)

variable {I J : Bindings → Prop} {E F : QueryError → Prop} {α β : Type} {x : Resolve α}
  {f : α → Resolve β} {b b' : Bindings} {a : α} {e : QueryError} {id : AliasId} {clause : Clause}

/-! ## Runs -/

theorem run_bind_of_runs (h : x.Runs b a b') : (x >>= f).run b = (f a).run b' := by
  show (match x.run b with | (r, b₁) => ExceptT.bindCont f r b₁) = _
  rw [show x.run b = (.ok a, b') from h]
  rfl

theorem run_bind_of_error (h : x.run b = (.error e, b')) : (x >>= f).run b = (.error e, b') := by
  show (match x.run b with | (r, b₁) => ExceptT.bindCont f r b₁) = _
  rw [h]
  rfl

theorem run_inScope (b : Bindings) (x : Resolve α) :
    (inScope x).run b = ((x.run { b with resolver := b.resolver.pushScope }).1,
      { (x.run { b with resolver := b.resolver.pushScope }).2 with
        resolver := (x.run { b with resolver := b.resolver.pushScope }).2.resolver.popScope }) :=
  rfl

/-! ## Ends -/

namespace Stays

theorem start (h : Stays I E b x) : I b := by
  induction h with
  | outcome hb | aliases hb | component hb | bound hb | assigned hb | within hb =>
    exact hb
  | bind _ _ ih => exact ih

/-- A property of the bindings before and after a computation that holds of every step. -/
theorem related {R : Bindings → Bindings → Prop} (hrefl : ∀ b, R b b)
    (htrans : ∀ b b' b'', R b b' → R b' b'' → R b b'')
    (hbind : ∀ b userAlias c, R b ((bindComponent userAlias c).run b).2)
    (hassign : ∀ b c, R b ((assignComponent c).run b).2)
    (hpush : ∀ b : Bindings, R b { b with resolver := b.resolver.pushScope })
    (hpop : ∀ b : Bindings, R b { b with resolver := b.resolver.popScope })
    (h : Stays I E b x) : R b (x.run b).2 := by
  induction h with
  | outcome => exact hrefl _
  | @bind _ _ b x f _ _ ihx ihf =>
    cases hx : x.run b with
    | mk r b₁ =>
      rw [hx] at ihx
      cases r with
      | error e => exact (run_bind_of_error hx).symm ▸ ihx
      | ok a => exact (run_bind_of_runs hx).symm ▸ htrans _ _ _ ihx (ihf a b₁ hx)
  | aliases _ _ _ ih | component _ _ _ _ ih => exact ih
  | bound => exact hbind _ _ _
  | assigned => exact hassign _ _
  | within _ _ _ ih => exact htrans _ _ _ (hpush _) (htrans _ _ _ ih (hpop _))

/-- The bindings have the property in the end, whatever the outcome. -/
theorem stop (h : Stays I E b x) : I (x.run b).2 := by
  induction h with
  | outcome hb => exact hb
  | @bind _ _ b x f _ _ ihx ihf =>
    cases hx : x.run b with
    | mk r b₁ =>
      rw [hx] at ihx
      cases r with
      | error e => exact (run_bind_of_error hx).symm ▸ ihx
      | ok a => exact (run_bind_of_runs hx).symm ▸ ihf a b₁ hx
  | aliases _ _ _ ih | component _ _ _ _ ih => exact ih
  | bound _ h | assigned _ h | within _ _ h => exact h

theorem error (h : Stays I E b x) (he : (x.run b).1 = .error e) : E e := by
  induction h with
  | outcome _ hr => exact hr e he
  | @bind _ _ b x f _ _ ihx ihf =>
    cases hx : x.run b with
    | mk r b₁ =>
      cases r with
      | error e' =>
        rw [run_bind_of_error hx] at he
        cases he
        exact ihx (by rw [hx])
      | ok a =>
        rw [run_bind_of_runs hx] at he
        exact ihf a b₁ hx he
  | aliases _ _ _ ih | component _ _ _ _ ih => exact ih he
  | bound | assigned => cases he
  | within _ _ _ ih => exact ih he

theorem knownIn (h : Stays I E b x) : b.KnownIn (x.run b).2 :=
  h.related Bindings.KnownIn.refl (fun _ _ _ => .trans) (fun _ _ _ => Bindings.knownIn_cons _ _ _ _)
    (fun _ _ => Bindings.knownIn_cons _ _ _ _) (fun _ _ h => h) fun _ _ h => h

theorem of_runs (h : Stays I E b x) (hr : x.Runs b a b') : I b' ∧ b.KnownIn b' := by
  have hstop := h.stop
  have hknown := h.knownIn
  rw [show x.run b = (.ok a, b') from hr] at hstop hknown
  exact ⟨hstop, hknown⟩

theorem mono (hI : ∀ b, I b → J b) (hE : ∀ e, E e → F e) (h : Stays I E b x) : Stays J F b x := by
  induction h with
  | outcome hb hr => exact .outcome (hI _ hb) fun e he => hE e (hr e he)
  | bind _ _ ihx ihf => exact .bind ihx ihf
  | aliases hb hf _ ih => exact .aliases (hI _ hb) hf ih
  | component hb hid hf _ ih => exact .component (hI _ hb) hid hf ih
  | bound hb h => exact .bound (hI _ hb) (hI _ h)
  | assigned hb h => exact .assigned (hI _ hb) (hI _ h)
  | within hb _ h ih => exact .within (hI _ hb) ih (hI _ h)

/-- As all components that are asked for are there, those of further occurrences make no
difference. -/
theorem run_pad (h : Stays I E b x) (extra : List (AliasId × Component)) :
    x.run (b.pad extra) = ((x.run b).1, (x.run b).2.pad extra) := by
  induction h with
  | outcome => rfl
  | @bind _ _ b x f _ _ ihx ihf =>
    cases hx : x.run b with
    | mk r b₁ =>
      rw [hx] at ihx
      cases r with
      | error e => rw [run_bind_of_error hx, run_bind_of_error ihx]
      | ok a => rw [run_bind_of_runs hx, run_bind_of_runs ihx, ihf a b₁ hx]
  | @aliases _ b f _ hf _ ih =>
    show (f (b.pad extra)).run (b.pad extra) = _
    rw [hf (b.pad extra) rfl]
    exact ih
  | @component _ b f id _ hid hf _ ih =>
    show (f (b.pad extra)).run (b.pad extra) = _
    rw [hf (b.pad extra) (Bindings.component?_pad hid)]
    exact ih
  | bound | assigned => rfl
  | @within _ b x _ _ _ ih =>
    rw [run_inScope, run_inScope]
    rw [show x.run { b.pad extra with resolver := (b.pad extra).resolver.pushScope } = _ from ih]
    rfl

end Stays

/-! ## Operations -/

theorem stays_pure (hb : I b) : Stays I E b (pure a : Resolve α) :=
  .outcome hb Except.error_of_ok

theorem stays_throw (hb : I b) (he : E e) : Stays I E b (throw e : Resolve α) := by
  refine .outcome hb ?_
  rintro _ ⟨⟩
  exact he

theorem stays_lookup? {name : String} (hb : I b) : Stays I E b (lookup? name) := by
  refine .aliases hb (fun b' hb' => ?_) (stays_pure hb)
  rw [hb']

theorem stays_componentOf {name : String} (hb : I b) (hid : (b.component? id).isSome = true) :
    Stays I E b (componentOf clause name id) := by
  refine .component hb hid (fun b' hb' => ?_) ?_
  · rw [hb']
  · obtain ⟨c, hc⟩ := Option.isSome_iff_exists.1 hid
    rw [hc]
    exact stays_pure hb

theorem Stays.bind_pure {g : α → β} (h : Stays I E b x) :
    Stays I E b (x >>= fun a => pure (g a)) :=
  .bind h fun _ _ hr => stays_pure (h.of_runs hr).1

theorem Stays.map {g : α → β} (h : Stays I E b x) : Stays I E b (g <$> x) := by
  rw [map_eq_pure_bind]
  exact h.bind_pure

/-! ## Lists -/

theorem stays_mapM {as : List α} (hb : I b)
    (hf : ∀ a ∈ as, ∀ b', I b' → b.KnownIn b' → Stays I E b' (f a)) : Stays I E b (as.mapM f) := by
  induction as generalizing b with
  | nil => exact stays_pure hb
  | cons a as ih =>
    rw [List.mapM_cons]
    obtain ⟨ha, has⟩ := List.forall_mem_cons.1 hf
    have hstep := ha b hb (.refl b)
    refine .bind hstep fun c b₁ hr => ?_
    obtain ⟨hb₁, hk⟩ := hstep.of_runs hr
    exact (ih hb₁ fun a ha b' hb' hk' => has a ha b' hb' (hk.trans hk')).bind_pure

/-- A fold stays when each of its steps does and keeps what is known of the accumulated value. -/
theorem stays_foldlM {g : β → α → Resolve β} {P : β → Bindings → Prop} {as : List α} {c : β}
    (hb : I b) (hc : P c b) (hg : ∀ a ∈ as, ∀ c b', I b' → P c b' → Stays I E b' (g c a) ∧
      ∀ c' b'', (g c a).Runs b' c' b'' → P c' b'') : Stays I E b (as.foldlM g c) := by
  induction as generalizing b c with
  | nil => exact stays_pure hb
  | cons a as ih =>
    rw [List.foldlM_cons]
    obtain ⟨ha, has⟩ := List.forall_mem_cons.1 hg
    obtain ⟨hstep, hP⟩ := ha c b hb hc
    exact .bind hstep fun c' b' hr => ih (hstep.of_runs hr).1 (hP c' b' hr) has

theorem stays_foldlM_of_knownIn {g : β → α → Resolve β} {as : List α} {c : β} (hb : I b)
    (hg : ∀ a ∈ as, ∀ c b', I b' → b.KnownIn b' → Stays I E b' (g c a)) :
    Stays I E b (as.foldlM g c) := by
  apply stays_foldlM (P := fun _ b' => b.KnownIn b') hb (.refl b)
  intro a ha c b' hb' hk
  have hstep := hg a ha c b' hb' hk
  exact ⟨hstep, fun c' b'' hr => hk.trans (hstep.of_runs hr).2⟩

end Resolve
end ObjectQuery
