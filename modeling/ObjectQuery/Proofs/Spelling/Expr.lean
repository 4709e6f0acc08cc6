import ObjectQuery.Proofs.Plan.Spelling
import ObjectQuery.Proofs.Resolve.Expr
import ObjectQuery.Proofs.Spelling.Bindings
import ObjectQuery.Resolve.Join

/-! # How resolved expressions are spelled

A word that names a column becomes the physical name of the column, and its alias is one that is
seen. So the columns of a resolved expression are spelled as the columns of a component are.

* `Surroundings.Spells`: what is asked of the components of a schema;
* `ResolveSubquery.Spells`: what is asked of the resolver of subqueries;
* `resolveExpr_spelled`: a whole expression. -/

namespace ObjectQuery

open Resolve

variable {env : Surroundings} {ok : Spelling} {subquery : ResolveSubquery} {clause : Clause}
  {bare : BareWords} {join : Option JoinScope} {param : Nat} {b b' : Bindings}
  {visible : Set AliasId} {scanner : Scanner}

/-- The columns that a relation names, and those that a relation of a component to itself needs on
both sides, are spelled well. -/
def Expansion.Spelled (ok : Spelling) (c : Component) (r : Relation) : Expansion → Prop
  | direct target => ok c r.localColumn ∧ ok target r.foreignColumn ∧
      (c.isSelfReferential r = true → ok c r.foreignColumn ∧ ok target r.localColumn ∧
        ∀ key ∈ target.keyNames, ok c key)
  | bridged target bridge sourceKey targetKey => ok c sourceKey ∧ ok target targetKey ∧
      ok bridge r.localColumn ∧ ok bridge r.foreignColumn ∧
      (c.isSelfReferential r = true → ∀ key ∈ target.keyNames, ok c key)

/-- The columns, the tests and the relations of the components are spelled well. -/
structure Surroundings.Spells (env : Surroundings) (ok : Spelling) : Prop where
  column : ∀ c, env.Describes c → ∀ x ∈ c.columns, ok c x.name
  test : ∀ c, env.Describes c → ∀ test ∈ c.inheritance, ok c test.column
  relation : ∀ c, env.Describes c → ∀ r ∈ c.relations, ∀ x,
    Expansion.ofRelation env c r = .ok x → x.Spelled ok c r

theorem Surroundings.Spells.key {c : Component} {key : String} (h : env.Spells ok)
    (hc : env.Describes c) (hk : key ∈ c.keyNames) : ok c key := by
  obtain ⟨x, hx, rfl⟩ := List.mem_map.1 hk
  exact h.column c hc x (List.mem_filter.1 hx).1

/-- The resolver of subqueries yields subqueries that are spelled well within what is seen. -/
def ResolveSubquery.Spells (subquery : ResolveSubquery) (env : Surroundings) (ok : Spelling) :
    Prop :=
  ∀ (inner : Text) (param : Nat) (clause : Clause) (b b' : Bindings) (q : Subquery),
    b.Recorded env → Runs (subquery inner param clause) b q b' →
    b.Steady env b' ∧ SpelledQuery b'.component? ok b.Sees q.graph q.clauses

/-! ## Fragments -/

theorem Fragment.resolve_spelled {f : Fragment} {xs : List Piece} (hok : env.Spells ok)
    (hsub : subquery.Spells env ok) (hb : b.Recorded env) (hseen : b.Sees ⊆ visible)
    (hbare : ∀ id ∈ bare.default, id ∈ visible)
    (h : (f.resolve subquery clause bare join param).Runs b xs b') :
    b.Steady env b' ∧ ∀ x ∈ xs, x.Spelled b'.component? ok visible := by
  cases becomes h with
  | verbatim | placeholder => exact ⟨.refl hb, List.forall_mem_singleton.2 trivial⟩
  | subquery h =>
    obtain ⟨hsteady, hq⟩ := hsub _ _ _ _ _ _ hb h
    refine ⟨hsteady, List.forall_mem_cons.2 ⟨trivial, List.forall_mem_cons.2 ⟨?_, ?_⟩⟩⟩
    · exact hq.mono (fun _ _ hc => hc) hseen
    · exact List.forall_mem_singleton.2 trivial
  | word hx =>
    refine ⟨.refl hb, List.forall_mem_singleton.2 ?_⟩
    cases hx with
    | kept | output => trivial
    | reference hw hl hc hcol =>
      exact ⟨hseen (Bindings.sees_of_lookup? hl), _, hc, hok.column _ (hb.describes hc) _ hcol⟩
    | column hid hc hcol =>
      exact ⟨hbare _ hid, _, hc, hok.column _ (hb.describes hc) _ hcol⟩

theorem resolveFragments_spelled {fs : List Fragment} {xs : List Piece} (hok : env.Spells ok)
    (hsub : subquery.Spells env ok) (hb : b.Recorded env) (hseen : b.Sees ⊆ visible)
    (hbare : ∀ id ∈ bare.default, id ∈ visible)
    (h : (resolveFragments scanner subquery clause bare join param fs).Runs b xs b') :
    b.Steady env b' ∧ ∀ x ∈ xs, x.Spelled b'.component? ok visible := by
  induction fs generalizing param b xs with
  | nil =>
    obtain ⟨rfl, rfl⟩ := runs_pure.1 h
    exact ⟨.refl hb, nofun⟩
  | cons f fs ih =>
    obtain ⟨xs, b₁, ys, h1, h2, rfl⟩ := runs_resolveFragments_cons h
    obtain ⟨hsteady, hxs⟩ := Fragment.resolve_spelled hok hsub hb hseen hbare h1
    obtain ⟨hsteady', hys⟩ := ih hsteady.recorded (hsteady.sees_eq ▸ hseen) h2
    refine ⟨hsteady.trans hsteady', fun x hx => ?_⟩
    rcases List.mem_append.1 hx with hx | hx
    · exact (hxs x hx).mono hsteady'.components le_rfl
    · exact hys x hx

/-- The columns of a resolved expression are spelled well. -/
theorem resolveExpr_spelled {t : Text} {e : Expr} (hok : env.Spells ok)
    (hsub : subquery.Spells env ok) (hb : b.Recorded env) (hseen : b.Sees ⊆ visible)
    (hbare : ∀ id ∈ bare.default, id ∈ visible)
    (h : (resolveExpr scanner subquery clause bare join param t).Runs b e b') :
    b.Steady env b' ∧ e.Spelled b'.component? ok visible := by
  obtain ⟨-, xs, hrun, rfl⟩ := runs_resolveExpr h
  obtain ⟨hsteady, hxs⟩ := resolveFragments_spelled hok hsub hb hseen hbare hrun
  exact ⟨hsteady, Expr.Spelled.ofPieces hxs⟩

end ObjectQuery
