import ObjectQuery.Proofs.Alias.Names
import ObjectQuery.Proofs.Resolve.Bindings

/-! # The aliases that bindings see

The occurrences that are bound to aliases in some scope (`Bindings.Sees`). Resolving an expression
sees the same occurrences before and after (`Bindings.Keeps`); binding an alias adds an occurrence to
the innermost scope, unless the alias is bound there already (`Bindings.Binds`). Throughout, all
occurrences have different names (`Bindings.Tidy`).

* `sees_of_lookup?`: what is found is seen;
* `Resolve.bindComponent_binds`, `Resolve.assignComponent_binds`: new occurrences. -/

namespace ObjectQuery

variable {env : Surroundings} {b b' b'' : Bindings} {id a : AliasId} {component : Component}
  {name userAlias : String}

/-- The occurrences that are bound to aliases in the scopes. -/
def AliasScope.bound (scopes : List AliasScope) : Set AliasId :=
  {a | ∃ scope ∈ scopes, ∃ name, (name, a) ∈ scope}

namespace Bindings

/-- The occurrences that aliases in scope stand for. -/
def Sees (b : Bindings) : Set AliasId := AliasScope.bound (b.resolver.scope :: b.resolver.outer)

/-- What holds of bindings throughout a resolution. -/
structure Tidy (env : Surroundings) (b : Bindings) : Prop where
  described : ∀ p ∈ b.components, env.Describes p.2
  distinct : b.resolver.Distinct

/-- What resolving an expression does to bindings. -/
structure Keeps (env : Surroundings) (b b' : Bindings) : Prop where
  tidy : b'.Tidy env
  size_le : b.size ≤ b'.size
  scope_eq : b'.resolver.scope = b.resolver.scope
  outer_eq : b'.resolver.outer = b.resolver.outer

/-- What joining a table does to bindings: the occurrence is new, or it is bound in the innermost
scope already. -/
structure Binds (env : Surroundings) (b : Bindings) (id : AliasId) (b' : Bindings) : Prop where
  tidy : b'.Tidy env
  size_le : b.size ≤ b'.size
  outer_eq : b'.resolver.outer = b.resolver.outer
  scope : ∀ e ∈ b'.resolver.scope, e ∈ b.resolver.scope ∨ e.2 = id
  id : (∃ name, (name, id) ∈ b.resolver.scope) ∨ b.size ≤ id ∧ id < b'.size

theorem Tidy.empty : Tidy env {} := ⟨nofun, .empty⟩

theorem Keeps.refl (h : b.Tidy env) : b.Keeps env b := ⟨h, Nat.le_refl _, rfl, rfl⟩

theorem Keeps.trans (h : b.Keeps env b') (h' : b'.Keeps env b'') : b.Keeps env b'' :=
  ⟨h'.tidy, Nat.le_trans h.size_le h'.size_le, h'.scope_eq.trans h.scope_eq,
    h'.outer_eq.trans h.outer_eq⟩

theorem Keeps.sees_eq (h : b.Keeps env b') : b'.Sees = b.Sees := by
  rw [Sees, Sees, h.scope_eq, h.outer_eq]

theorem Tidy.describes (h : b.Tidy env) (hc : b.component? id = some component) :
    env.Describes component :=
  h.described _ (mem_of_component? hc)

theorem sees_of_lookup? (h : b.resolver.lookup? name = some id) : id ∈ b.Sees := by
  obtain ⟨scope, hscope, hget⟩ := List.exists_of_findSome?_eq_some h
  exact ⟨scope, hscope, name, AliasScope.mem_of_get? hget⟩

theorem mem_scope_of_lookupLocal? (h : b.resolver.lookupLocal? name = some id) :
    (name, id) ∈ b.resolver.scope :=
  AliasScope.mem_of_get? h

end Bindings

/-! ## New occurrences -/

namespace Resolve

theorem assignComponent_binds (hb : b.Tidy env) (hc : env.Describes component)
    (h : (assignComponent component).Runs b id b') : b.Binds env id b' := by
  obtain ⟨rfl, rfl⟩ := runs_assignComponent.1 h
  have hlt := (b.resolver.length_assign component.table).ge
  exact ⟨⟨List.forall_mem_cons.2 ⟨hc, hb.described⟩, hb.distinct.assign _⟩, Nat.le_of_lt hlt, rfl,
    fun e he => .inl he, .inr ⟨Nat.le_refl _, hlt⟩⟩

theorem bindComponent_binds (hb : b.Tidy env) (hc : env.Describes component)
    (h : (bindComponent userAlias component).Runs b id b') : b.Binds env id b' := by
  obtain ⟨rfl, rfl⟩ := runs_bindComponent.1 h
  have htidy : Bindings.Tidy env ⟨(b.resolver.bind userAlias component.table).2,
      ((b.resolver.bind userAlias component.table).1, component) :: b.components⟩ :=
    ⟨List.forall_mem_cons.2 ⟨hc, hb.described⟩, hb.distinct.bind _ _⟩
  cases hl : b.resolver.lookupLocal? userAlias with
  | some known =>
    rw [Resolver.bind_known hl] at htidy ⊢
    exact ⟨htidy, Nat.le_refl _, rfl, fun e he => .inl he,
      .inl ⟨_, Bindings.mem_scope_of_lookupLocal? hl⟩⟩
  | none =>
    have hlt := (b.resolver.length_assign component.table).ge
    rw [Resolver.bind_new hl] at htidy ⊢
    refine ⟨htidy, Nat.le_of_lt hlt, rfl, fun e he => ?_, .inr ⟨Nat.le_refl _, hlt⟩⟩
    rcases List.mem_cons.1 he with rfl | he
    · exact .inr rfl
    · exact .inl he

end Resolve
end ObjectQuery
