import ObjectQuery.Proofs.Alias.Names
import ObjectQuery.Proofs.Plan.Provenance
import ObjectQuery.Proofs.Resolve.Runs

/-! # Sound bindings

What holds of the bindings throughout a resolution: every component was given by the provider,
every alias in scope stands for an occurrence, and the names of occurrences consist of name
characters (`Bindings.Sound`). Resolving an expression leaves the scopes as they are
(`Bindings.Extends`); binding an alias changes the innermost scope alone (`Bindings.Grows`).

* `bindComponent_spec`, `assignComponent_spec`: new occurrences;
* `Bindings.Sound.lookup`, `Bindings.Sound.describes`: what is found. -/

namespace ObjectQuery

variable {env : Surroundings} {b b' b'' : Bindings} {id : AliasId} {component : Component}
  {name userAlias table : String}

/-- The number of occurrences so far. -/
def Bindings.size (b : Bindings) : Nat := b.resolver.occurrences.length

theorem IsName.tame (h : IsName name) : Tame name.toList := tame_of_isNameChar h

/-- The aliases of a scope are tame and stand for occurrences. -/
def AliasScope.Sound (size : Nat) (scope : AliasScope) : Prop :=
  ∀ e ∈ scope, e.2 < size ∧ Tame e.1.toList

/-- What holds of bindings throughout a resolution. -/
structure Bindings.Sound (env : Surroundings) (b : Bindings) : Prop where
  described : ∀ p ∈ b.components, env.Describes p.2
  scope : b.resolver.scope.Sound b.size
  outer : ∀ scope ∈ b.resolver.outer, scope.Sound b.size
  named : ∀ o ∈ b.resolver.occurrences, IsName o.name

/-- What resolving an expression does to bindings. -/
structure Bindings.Extends (env : Surroundings) (b b' : Bindings) : Prop where
  sound : b'.Sound env
  size_le : b.size ≤ b'.size
  scope_eq : b'.resolver.scope = b.resolver.scope
  outer_eq : b'.resolver.outer = b.resolver.outer

/-- What resolving a clause that binds aliases does to bindings. -/
structure Bindings.Grows (env : Surroundings) (b b' : Bindings) : Prop where
  sound : b'.Sound env
  size_le : b.size ≤ b'.size
  outer_eq : b'.resolver.outer = b.resolver.outer

namespace Bindings

theorem Extends.refl (h : b.Sound env) : b.Extends env b := ⟨h, Nat.le_refl _, rfl, rfl⟩

theorem Extends.trans (h : b.Extends env b') (h' : b'.Extends env b'') : b.Extends env b'' :=
  ⟨h'.sound, Nat.le_trans h.size_le h'.size_le, h'.scope_eq.trans h.scope_eq,
    h'.outer_eq.trans h.outer_eq⟩

theorem Extends.grows (h : b.Extends env b') : b.Grows env b' :=
  ⟨h.sound, h.size_le, h.outer_eq⟩

theorem Grows.refl (h : b.Sound env) : b.Grows env b := (Extends.refl h).grows

theorem Grows.trans (h : b.Grows env b') (h' : b'.Grows env b'') : b.Grows env b'' :=
  ⟨h'.sound, Nat.le_trans h.size_le h'.size_le, h'.outer_eq.trans h.outer_eq⟩

/-- No bindings at all. -/
theorem Sound.empty : Sound env {} := ⟨nofun, nofun, nofun, nofun⟩

end Bindings

/-! ## What is found -/

/-- An alias that is found stands for an occurrence. -/
theorem Bindings.Sound.lookup (h : b.Sound env) (hl : b.resolver.lookup? name = some id) :
    id < b.size ∧ Tame name.toList := by
  obtain ⟨scope, hscope, hget⟩ := List.exists_of_findSome?_eq_some hl
  have hmem := AliasScope.mem_of_get? hget
  rcases List.mem_cons.1 hscope with rfl | hscope
  · exact h.scope _ hmem
  · exact h.outer _ hscope _ hmem

theorem Bindings.Sound.lookupLocal (h : b.Sound env)
    (hl : b.resolver.lookupLocal? name = some id) : id < b.size :=
  (h.scope _ (AliasScope.mem_of_get? hl)).1

theorem Bindings.mem_of_component? (h : b.component? id = some component) :
    (id, component) ∈ b.components := by
  simp only [Bindings.component?, Option.map_eq_some_iff] at h
  obtain ⟨p, hp, rfl⟩ := h
  have hid : p.1 = id := by simpa using List.find?_some hp
  exact hid ▸ List.mem_of_find?_eq_some hp

/-- A component that is found was given by the provider. -/
theorem Bindings.Sound.describes (h : b.Sound env) (hc : b.component? id = some component) :
    env.Describes component :=
  h.described _ (Bindings.mem_of_component? hc)

theorem Component.mem_of_column? {column : Column} (h : component.column? name = some column) :
    column ∈ component.columns := by
  simp only [Component.column?, Option.or_eq_some_iff] at h
  rcases h with h | ⟨-, h⟩ <;> exact List.mem_of_find?_eq_some h

/-! ## New occurrences -/

theorem isName_numberedName (table : String) (n : Nat) :
    IsName (numberedName (nameLetter table) n) := by
  intro c hc
  rw [numberedName, String.toList_ofList] at hc
  rcases List.mem_cons.1 hc with rfl | hc
  · simp only [nameLetter]
    cases hf : table.toList.find? Char.isAlpha with
    | none => exact (by decide : isNameChar 't' = true)
    | some d => exact isNameChar_toLower (List.find?_some hf)
  · split at hc
    · cases hc
    · exact isNameChar_of_mem_toString hc

theorem AliasScope.Sound.mono {scope : AliasScope} {m n : Nat} (h : scope.Sound m) (hn : m ≤ n) :
    scope.Sound n := fun e he => ⟨Nat.lt_of_lt_of_le (h e he).1 hn, (h e he).2⟩

/-- A new occurrence gets the next number. -/
structure Bindings.Adds (env : Surroundings) (b : Bindings) (id : AliasId) (b' : Bindings) :
    Prop where
  id_eq : id = b.size
  size_eq : b'.size = b.size + 1
  grows : b.Grows env b'

/-- Bindings with one more occurrence, and with an alias for it at most. -/
theorem Bindings.Sound.adds {r : Resolver} {o : Occurrence} (hb : b.Sound env)
    (hc : env.Describes component) (ho : r.occurrences = b.resolver.occurrences ++ [o])
    (hname : IsName o.name) (houter : r.outer = b.resolver.outer)
    (hscope : ∀ e ∈ r.scope, e ∈ b.resolver.scope ∨ e.2 = b.size ∧ Tame e.1.toList) :
    b.Adds env b.size ⟨r, (b.size, component) :: b.components⟩ := by
  have hsize : r.occurrences.length = b.size + 1 := by rw [ho, List.length_append]; rfl
  have hle : b.size ≤ r.occurrences.length := hsize ▸ Nat.le_succ _
  refine ⟨rfl, hsize, ⟨?_, fun e he => ?_, fun scope hs => ?_, ?_⟩, hle, houter⟩
  · exact List.forall_mem_cons.2 ⟨hc, hb.described⟩
  · rcases hscope e he with he | ⟨hid, ht⟩
    · exact hb.scope.mono hle e he
    · exact ⟨hid.trans_lt hsize.ge, ht⟩
  · exact (hb.outer scope (houter ▸ hs)).mono hle
  · rw [ho]
    exact List.forall_mem_append.2 ⟨hb.named, List.forall_mem_singleton.2 hname⟩

namespace Resolve

theorem runs_assignComponent : (assignComponent component).Runs b id b' ↔
    b.size = id ∧ ⟨(b.resolver.assign component.table).2, (id, component) :: b.components⟩ = b' := by
  simp only [assignComponent, runs_bind, runs_onResolver, runs_remember, runs_pure]
  constructor
  · rintro ⟨_, _, ⟨rfl, rfl⟩, _, _, rfl, rfl, rfl⟩
    exact ⟨rfl, rfl⟩
  · rintro ⟨rfl, rfl⟩
    exact ⟨_, _, ⟨rfl, rfl⟩, (), _, rfl, rfl, rfl⟩

theorem runs_bindComponent : (bindComponent userAlias component).Runs b id b' ↔
    (b.resolver.bind userAlias component.table).1 = id ∧
      ⟨(b.resolver.bind userAlias component.table).2, (id, component) :: b.components⟩ = b' := by
  simp only [bindComponent, runs_bind, runs_onResolver, runs_remember, runs_pure]
  constructor
  · rintro ⟨_, _, ⟨rfl, rfl⟩, _, _, rfl, rfl, rfl⟩
    exact ⟨rfl, rfl⟩
  · rintro ⟨rfl, rfl⟩
    exact ⟨_, _, ⟨rfl, rfl⟩, (), _, rfl, rfl, rfl⟩

theorem assignComponent_spec (hb : b.Sound env) (hc : env.Describes component)
    (h : (assignComponent component).Runs b id b') :
    b.Adds env id b' ∧ b'.resolver.scope = b.resolver.scope := by
  obtain ⟨rfl, rfl⟩ := runs_assignComponent.1 h
  exact ⟨hb.adds hc rfl (isName_numberedName _ _) rfl fun e he => .inl he, rfl⟩

theorem bindComponent_spec (hb : b.Sound env) (hc : env.Describes component)
    (ha : Tame userAlias.toList) (hnew : b.resolver.lookupLocal? userAlias = none)
    (h : (bindComponent userAlias component).Runs b id b') :
    b.Adds env id b' ∧ b'.resolver.scope = (userAlias, id) :: b.resolver.scope := by
  obtain ⟨rfl, rfl⟩ := runs_bindComponent.1 h
  rw [Resolver.bind_new hnew]
  refine ⟨hb.adds hc rfl (isName_numberedName _ _) rfl fun e he => ?_, rfl⟩
  rcases List.mem_cons.1 he with rfl | he
  · exact .inr ⟨rfl, ha⟩
  · exact .inl he

end Resolve
end ObjectQuery
