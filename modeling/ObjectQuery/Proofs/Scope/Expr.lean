import ObjectQuery.Proofs.Plan.Scope
import ObjectQuery.Proofs.Scope.Bindings
import ObjectQuery.Proofs.Resolve.Expr

/-! # What resolved expressions read

An expression reads occurrences that aliases in scope stand for, and those that words without points
stand for. When none of its words has a point and it holds no subquery, it reads only the latter
(`Fragment.IsBare`).

* `ResolveSubquery.Nests`: what is asked of the resolver of subqueries;
* `resolveExpr_over`: a whole expression. -/

namespace ObjectQuery

open Resolve

variable {env : Surroundings} {subquery : ResolveSubquery} {clause : Clause} {bare : BareWords}
  {join : Option JoinScope} {param : Nat} {b b' : Bindings} {visible visible' : Set AliasId}
  {listed : AliasId → Nat → Prop} {scanner : Scanner}

/-- The resolver of subqueries yields subqueries that read occurrences in scope, and whose own
occurrences are new. -/
def ResolveSubquery.Nests (subquery : ResolveSubquery) (env : Surroundings) : Prop :=
  ∀ (inner : Text) (param : Nat) (clause : Clause) (b b' : Bindings) (q : Subquery),
    b.Tidy env → Runs (subquery inner param clause) b q b' →
    b.Keeps env b' ∧ (∀ a ∈ q.outerReads, a ∈ b.Sees) ∧ q.Formed (Set.Ico b.size b'.size)

/-- The words without points stand for visible occurrences and listed select expressions. -/
structure BareWords.Within (bare : BareWords) (visible : Set AliasId)
    (listed : AliasId → Nat → Prop) : Prop where
  default : ∀ id ∈ bare.default, id ∈ visible
  output : ∀ name o k, bare.output? name = some (o, k) → o ∈ visible ∧ listed o k

theorem BareWords.Within.empty : BareWords.Within {} visible listed := ⟨nofun, nofun⟩

/-- The fragment names no alias: it is no word with a point, and no subquery. -/
def Fragment.IsBare : Fragment → Prop
  | .word w _ => '.' ∉ w
  | .subquery _ => False
  | .verbatim _ | .placeholder | .named _ => True

instance : (f : Fragment) → Decidable f.IsBare
  | .word w _ => inferInstanceAs (Decidable ('.' ∉ w))
  | .subquery _ => isFalse id
  | .verbatim _ | .placeholder | .named _ => isTrue trivial

/-! ## Fragments -/

theorem Fragment.resolve_over {f : Fragment} {xs : List Piece} (hsub : subquery.Nests env)
    (hb : b.Tidy env) (hseen : f.IsBare ∨ b.Sees ⊆ visible) (hbare : bare.Within visible listed)
    (h : (f.resolve subquery clause bare join param).Runs b xs b') :
    b.Keeps env b' ∧ ∀ x ∈ xs, x.Over visible listed (Set.Ico b.size b'.size) := by
  cases becomes h with
  | verbatim | placeholder => exact ⟨.refl hb, List.forall_mem_singleton.2 trivial⟩
  | subquery h =>
    obtain ⟨hkeeps, hreads, hq⟩ := hsub _ _ _ _ _ _ hb h
    have hseen : b.Sees ⊆ visible := hseen.resolve_left id
    refine ⟨hkeeps, List.forall_mem_cons.2 ⟨trivial, List.forall_mem_cons.2 ⟨?_, ?_⟩⟩⟩
    · exact ⟨fun a ha => hseen (hreads a ha), hq⟩
    · exact List.forall_mem_singleton.2 trivial
  | word hx =>
    refine ⟨.refl hb, List.forall_mem_singleton.2 ?_⟩
    cases hx with
    | kept => trivial
    | reference hw hl _ _ =>
      exact hseen.elim (absurd hw) fun hseen => hseen (Bindings.sees_of_lookup? hl)
    | column hid _ _ => exact hbare.default _ hid
    | output ho => exact hbare.output _ _ _ ho

theorem resolveFragments_over {fs : List Fragment} {xs : List Piece} (hsub : subquery.Nests env)
    (hb : b.Tidy env) (hseen : (∀ f ∈ fs, f.IsBare) ∨ b.Sees ⊆ visible)
    (hbare : bare.Within visible listed)
    (h : (resolveFragments scanner subquery clause bare join param fs).Runs b xs b') :
    b.Keeps env b' ∧ ∀ x ∈ xs, x.Over visible listed (Set.Ico b.size b'.size) := by
  induction fs generalizing param b xs with
  | nil =>
    obtain ⟨rfl, rfl⟩ := runs_pure.1 h
    exact ⟨.refl hb, nofun⟩
  | cons f fs ih =>
    obtain ⟨xs, b₁, ys, h1, h2, rfl⟩ := runs_resolveFragments_cons h
    obtain ⟨hkeeps, hxs⟩ := Fragment.resolve_over hsub hb
      (hseen.imp_left fun hf => hf f List.mem_cons_self) hbare h1
    obtain ⟨hkeeps', hys⟩ := ih hkeeps.tidy
      (hseen.imp (fun hf f hmem => hf f (List.mem_cons_of_mem _ hmem)) (hkeeps.sees_eq ▸ ·)) h2
    refine ⟨hkeeps.trans hkeeps', fun x hx => ?_⟩
    rcases List.mem_append.1 hx with hx | hx
    · exact (hxs x hx).mono le_rfl (fun _ _ h => h) (Set.Ico_subset_Ico_right hkeeps'.size_le)
    · exact (hys x hx).mono le_rfl (fun _ _ h => h) (Set.Ico_subset_Ico_left hkeeps.size_le)

/-- An expression reads what is in scope, and what words without points stand for. -/
theorem resolveExpr_over {t : Text} {e : Expr} (hsub : subquery.Nests env) (hb : b.Tidy env)
    (hseen : (∀ f ∈ Fragment.ofText scanner t, f.IsBare) ∨ b.Sees ⊆ visible)
    (hbare : bare.Within visible listed)
    (h : (resolveExpr scanner subquery clause bare join param t).Runs b e b') :
    b.Keeps env b' ∧ e.Over visible listed (Set.Ico b.size b'.size) := by
  obtain ⟨-, xs, hrun, rfl⟩ := runs_resolveExpr h
  obtain ⟨hkeeps, hxs⟩ := resolveFragments_over hsub hb hseen hbare hrun
  exact ⟨hkeeps, Expr.Over.ofPieces hxs⟩

end ObjectQuery
