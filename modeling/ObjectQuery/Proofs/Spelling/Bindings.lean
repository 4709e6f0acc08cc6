import ObjectQuery.Proofs.Scope.Bindings

/-! # Components that bindings remember

The component of an occurrence is remembered when the occurrence is made, and nothing that is
resolved later changes it (`Bindings.Retains`). This rests on the aliases of a query being new when
they are bound: binding one again would put another component in the place of the first.

* `Bindings.Recorded`: what holds of bindings throughout;
* `Resolve.bindComponent_gains`, `Resolve.assignComponent_gains`: new occurrences. -/

namespace ObjectQuery

variable {env : Surroundings} {b b' b'' : Bindings} {id : AliasId} {component : Component}
  {userAlias : String}

namespace Bindings

/-- What holds of bindings throughout a resolution: the components come from the provider and are
those of occurrences, and aliases stand for occurrences. -/
structure Recorded (env : Surroundings) (b : Bindings) : Prop where
  described : ∀ p ∈ b.components, env.Describes p.2
  covered : ∀ p ∈ b.components, p.1 < b.size
  seen : ∀ a ∈ b.Sees, a < b.size

/-- What resolving does to bindings: what is known of occurrences stays known, and the scopes of the
queries around stay as they are. -/
structure Retains (env : Surroundings) (b b' : Bindings) : Prop where
  recorded : b'.Recorded env
  size_le : b.size ≤ b'.size
  outer_eq : b'.resolver.outer = b.resolver.outer
  components : ∀ id c, b.component? id = some c → b'.component? id = some c

/-- What resolving an expression does to bindings. -/
structure Steady (env : Surroundings) (b b' : Bindings) : Prop extends Retains env b b' where
  scope_eq : b'.resolver.scope = b.resolver.scope

/-- A new occurrence of a component. -/
structure Gains (env : Surroundings) (b : Bindings) (id : AliasId) (component : Component)
    (b' : Bindings) : Prop extends Retains env b b' where
  id_eq : id = b.size
  known : b'.component? id = some component

theorem Recorded.empty : Recorded env {} :=
  ⟨nofun, nofun, fun _ ⟨scope, hscope, _, hmem⟩ => by
    rw [List.mem_singleton.1 hscope] at hmem
    cases hmem⟩

theorem Recorded.describes (h : b.Recorded env) (hc : b.component? id = some component) :
    env.Describes component :=
  h.described _ (mem_of_component? hc)

theorem Recorded.lt (h : b.Recorded env) (hc : b.component? id = some component) :
    id < b.size :=
  h.covered _ (mem_of_component? hc)

theorem Retains.refl (h : b.Recorded env) : b.Retains env b :=
  ⟨h, Nat.le_refl _, rfl, fun _ _ hc => hc⟩

theorem Retains.trans (h : b.Retains env b') (h' : b'.Retains env b'') : b.Retains env b'' :=
  ⟨h'.recorded, Nat.le_trans h.size_le h'.size_le, h'.outer_eq.trans h.outer_eq,
    fun id c hc => h'.components id c (h.components id c hc)⟩

theorem Steady.refl (h : b.Recorded env) : b.Steady env b := ⟨.refl h, rfl⟩

theorem Steady.trans (h : b.Steady env b') (h' : b'.Steady env b'') : b.Steady env b'' :=
  ⟨h.toRetains.trans h'.toRetains, h'.scope_eq.trans h.scope_eq⟩

theorem Steady.sees_eq (h : b.Steady env b') : b'.Sees = b.Sees := by
  rw [Sees, Sees, h.scope_eq, h.outer_eq]

/-- Entering a nested query changes neither what is seen nor what is known. -/
theorem Recorded.pushScope (h : b.Recorded env) :
    Recorded env { b with resolver := b.resolver.pushScope } := by
  refine ⟨h.described, h.covered, ?_⟩
  rintro a ⟨scope, hscope, name, hmem⟩
  rcases List.mem_cons.1 hscope with rfl | hscope
  · cases hmem
  · exact h.seen a ⟨scope, hscope, name, hmem⟩

/-- Leaving a nested query restores the scopes. -/
theorem Retains.popScope (hb : b.Recorded env)
    (h : Retains env { b with resolver := b.resolver.pushScope } b') :
    b.Steady env { b' with resolver := b'.resolver.popScope } := by
  have hpop : b'.resolver.popScope =
      { b'.resolver with scope := b.resolver.scope, outer := b.resolver.outer } := by
    rw [Resolver.popScope, h.outer_eq, Resolver.pushScope]
  rw [hpop]
  exact ⟨⟨⟨h.recorded.described, h.recorded.covered,
    fun a ha => Nat.lt_of_lt_of_le (hb.seen a ha) h.size_le⟩, h.size_le, rfl, h.components⟩, rfl⟩

/-! ## New occurrences -/

/-- Bindings with one more occurrence, and with an alias for it at most. -/
theorem Recorded.gains {r : Resolver} (hb : b.Recorded env) (hc : env.Describes component)
    (hsize : r.occurrences.length = b.size + 1) (houter : r.outer = b.resolver.outer)
    (hscope : ∀ e ∈ r.scope, e ∈ b.resolver.scope ∨ e.2 = b.size) :
    b.Gains env b.size component ⟨r, (b.size, component) :: b.components⟩ := by
  have hle : b.size ≤ r.occurrences.length := hsize ▸ Nat.le_succ _
  have hlt : b.size < r.occurrences.length := hsize ▸ Nat.lt_succ_self _
  refine ⟨⟨⟨?_, ?_, ?_⟩, hle, houter, fun id c hid => ?_⟩, rfl, ?_⟩
  · exact List.forall_mem_cons.2 ⟨hc, hb.described⟩
  · exact List.forall_mem_cons.2 ⟨hlt, fun p hp => Nat.lt_of_lt_of_le (hb.covered p hp) hle⟩
  · rintro a ⟨scope, hmem, name, ha⟩
    rcases List.mem_cons.1 hmem with rfl | hmem
    · rcases hscope _ ha with ha | rfl
      · exact Nat.lt_of_lt_of_le (hb.seen a ⟨_, List.mem_cons_self, name, ha⟩) hle
      · exact hlt
    · have hmem : scope ∈ b.resolver.outer := houter ▸ hmem
      exact Nat.lt_of_lt_of_le (hb.seen a ⟨scope, List.mem_cons_of_mem _ hmem, name, ha⟩) hle
  · have hne : (b.size == id) = false :=
      beq_eq_false_iff_ne.2 (Nat.ne_of_gt (hb.lt hid))
    simpa only [component?, List.find?_cons, hne] using hid
  · simp only [component?, List.find?_cons, beq_self_eq_true, Option.map_some]

end Bindings

namespace Resolve

theorem assignComponent_gains (hb : b.Recorded env) (hc : env.Describes component)
    (h : (assignComponent component).Runs b id b') :
    b.Gains env id component b' ∧ b'.resolver.scope = b.resolver.scope := by
  obtain ⟨rfl, rfl⟩ := runs_assignComponent.1 h
  exact ⟨hb.gains hc (b.resolver.length_assign component.table) rfl fun e he => .inl he, rfl⟩

theorem bindComponent_gains (hb : b.Recorded env) (hc : env.Describes component)
    (hnew : b.resolver.lookupLocal? userAlias = none)
    (h : (bindComponent userAlias component).Runs b id b') :
    b.Gains env id component b' ∧ b'.resolver.scope = (userAlias, id) :: b.resolver.scope := by
  obtain ⟨rfl, rfl⟩ := runs_bindComponent.1 h
  rw [Resolver.bind_new hnew]
  refine ⟨hb.gains hc (b.resolver.length_assign component.table) rfl fun e he => ?_, rfl⟩
  rcases List.mem_cons.1 he with rfl | he
  · exact .inr rfl
  · exact .inl he

end Resolve
end ObjectQuery
