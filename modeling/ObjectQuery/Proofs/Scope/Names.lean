import ObjectQuery.Proofs.Scope.Clauses
import ObjectQuery.Proofs.Scope.From

/-! # The names in scope

What the scopes bind is named by the aliases that queries declare, and by the paths of relations that
are passed on the way (`Bindings.Shows`). A `FROM` clause binds the aliases of its elements one after
another, each when its turn comes (`Bindings.Enrols`); resolving an expression binds none.

* `Bindings.Shows.lookup?_eq_none`, `Bindings.Enrols.lookup?_eq`: what is found by a name;
* `resolveJoins_enrols`, `resolveFrom_enrols`: the names of a `FROM` clause. -/

namespace ObjectQuery

open Resolve

variable {env : Surroundings} {subquery : ResolveSubquery} {param lo : Nat} {b b' b'' : Bindings}
  {g g' : JoinGraph} {id id' : AliasId} {kind : JoinKind} {head userAlias name : String}
  {scopes : List AliasScope} {names names' : List String}

/-- The name is one of the given aliases or the path of a relation. -/
def IsScopeName (names : List String) (name : String) : Prop :=
  Tame name.toList ∧ (name ∈ names ∨ '.' ∈ name.toList)

theorem IsScopeName.mono (hn : names ⊆ names') (h : IsScopeName names name) :
    IsScopeName names' name :=
  ⟨h.1, h.2.imp_left fun h => hn h⟩

namespace Bindings

/-- The names in scope are the given aliases and the paths of relations. -/
def Shows (b : Bindings) (names : List String) : Prop :=
  ∀ scope ∈ b.resolver.scope :: b.resolver.outer, ∀ e ∈ scope, IsScopeName names e.1

/-- The innermost scope has taken in no names but the given aliases and the paths of relations. -/
structure Enrols (b : Bindings) (names : List String) (b' : Bindings) : Prop where
  outer_eq : b'.resolver.outer = b.resolver.outer
  scope : ∀ e ∈ b'.resolver.scope, e ∈ b.resolver.scope ∨ IsScopeName names e.1

namespace Enrols

theorem refl (b : Bindings) : b.Enrols names b := ⟨rfl, fun _ he => .inl he⟩

theorem trans (h : b.Enrols names b') (h' : b'.Enrols names b'') : b.Enrols names b'' := by
  refine ⟨h'.outer_eq.trans h.outer_eq, fun e he => ?_⟩
  exact (h'.scope e he).elim (h.scope e) .inr

theorem of_keeps (h : b.Keeps env b') : b.Enrols names b' :=
  ⟨h.outer_eq, fun _ he => .inl (h.scope_eq ▸ he)⟩

/-- A name that was not taken in stands for what it stood for when the scope was entered. -/
theorem lookup?_eq (h : b.Enrols names b') (hscope : b.resolver.scope = [])
    (hdot : '.' ∉ name.toList) (hn : name ∉ names) :
    b'.resolver.lookup? name = b.resolver.lookup? name := by
  have hnone : b'.resolver.scope.get? name = none := by
    rw [Option.eq_none_iff_forall_ne_some]
    intro id hget
    rcases h.scope _ (AliasScope.mem_of_get? hget) with hmem | ⟨-, hmem⟩
    · rw [hscope] at hmem
      cases hmem
    · exact hmem.elim hn hdot
  rw [Resolver.lookup?, Resolver.lookup?, List.findSome?_cons, List.findSome?_cons, hnone, hscope,
    h.outer_eq]
  rfl

end Enrols

namespace Shows

theorem empty : Bindings.Shows {} names := by
  intro scope hscope e he
  rw [List.mem_singleton.1 hscope] at he
  cases he

theorem keeps (h : b.Shows names) (hk : b.Keeps env b') : b'.Shows names := by
  rw [Shows, hk.scope_eq, hk.outer_eq]
  exact h

theorem pushScope (h : b.Shows names) :
    Bindings.Shows { b with resolver := b.resolver.pushScope } names := by
  intro scope hscope e he
  rcases List.mem_cons.1 hscope with rfl | hscope
  · cases he
  · exact h scope hscope e he

theorem enrols (h : b.Shows names) (hg : b.Enrols names' b') : b'.Shows (names' ++ names) := by
  have hold : ∀ scope ∈ b.resolver.scope :: b.resolver.outer, ∀ e ∈ scope,
      IsScopeName (names' ++ names) e.1 := fun scope hscope e he =>
    (h scope hscope e he).mono (List.subset_append_right _ _)
  intro scope hscope e he
  rcases List.mem_cons.1 hscope with rfl | hscope
  · rcases hg.scope e he with he | hname
    · exact hold _ List.mem_cons_self e he
    · exact hname.mono (List.subset_append_left _ _)
  · rw [hg.outer_eq] at hscope
    exact hold scope (List.mem_cons_of_mem _ hscope) e he

/-- An alias that is found has a tame name. -/
theorem tame (h : b.Shows names) (hl : b.resolver.lookup? name = some id) : Tame name.toList := by
  obtain ⟨scope, hscope, hget⟩ := List.exists_of_findSome?_eq_some hl
  exact (h scope hscope _ (AliasScope.mem_of_get? hget)).1

/-- An alias that is none of the names is not found. -/
theorem lookup?_eq_none (h : b.Shows names) (hdot : '.' ∉ name.toList) (hn : name ∉ names) :
    b.resolver.lookup? name = none := by
  refine List.findSome?_eq_none_iff.2 fun scope hscope => ?_
  rw [Option.eq_none_iff_forall_ne_some]
  intro id hget
  obtain ⟨-, hmem⟩ := h scope hscope _ (AliasScope.mem_of_get? hget)
  exact hmem.elim hn hdot

end Shows
end Bindings

/-! ## Expressions -/

section
variable {scanner : Scanner} {clause : Clause} {bare : BareWords} {join : Option JoinScope}

theorem BareWords.within_univ : bare.Within Set.univ fun _ _ => True :=
  ⟨fun _ _ => trivial, fun _ _ _ _ => ⟨trivial, trivial⟩⟩

theorem resolveFragments_keeps {fs : List Fragment} {ps : List Piece} (hsub : subquery.Nests env)
    (hb : b.Tidy env)
    (h : (resolveFragments scanner subquery clause bare join param fs).Runs b ps b') :
    b.Keeps env b' :=
  (resolveFragments_over hsub hb (.inr (Set.subset_univ _)) BareWords.within_univ h).1

theorem resolveExpr_keeps {t : Text} {e : Expr} (hsub : subquery.Nests env) (hb : b.Tidy env)
    (h : (resolveExpr scanner subquery clause bare join param t).Runs b e b') : b.Keeps env b' :=
  (resolveExpr_over hsub hb (.inr (Set.subset_univ _)) BareWords.within_univ h).1

end

/-! ## Relations -/

theorem bindComponent_enrols {c : Component} (hname : IsScopeName names userAlias)
    (h : (bindComponent userAlias c).Runs b id b') : b.Enrols names b' := by
  obtain ⟨rfl, rfl⟩ := runs_bindComponent.1 h
  cases hl : b.resolver.lookupLocal? userAlias with
  | some known =>
    rw [Resolver.bind_known hl]
    exact ⟨rfl, fun e he => .inl he⟩
  | none =>
    rw [Resolver.bind_new hl]
    refine ⟨rfl, fun e he => ?_⟩
    rcases List.mem_cons.1 he with rfl | he
    · exact .inr hname
    · exact .inl he

theorem assignComponent_enrols {c : Component} (h : (assignComponent c).Runs b id b') :
    b.Enrols names b' := by
  obtain ⟨rfl, rfl⟩ := runs_assignComponent.1 h
  exact ⟨rfl, fun e he => .inl he⟩

theorem expandRelation_enrols {c : Component} {r : Relation} (hname : IsScopeName names userAlias)
    (h : (expandRelation env g id c r kind userAlias).Runs b (g', id') b') : b.Enrols names b' := by
  cases runs_expandRelation h with
  | direct _ hbind => exact bindComponent_enrols hname hbind
  | bridged _ hbind hassign =>
    exact (bindComponent_enrols hname hbind).trans (assignComponent_enrols hassign)

theorem resolveStep_enrols {relation : String} (hname : IsScopeName names userAlias)
    (h : (resolveStep env g kind head id relation userAlias).Runs b (g', id') b') :
    b.Enrols names b' := by
  obtain ⟨c, -, r, -, h⟩ := runs_resolveStep h
  exact expandRelation_enrols hname h

/-- Walking along relations binds their paths and, at the end, the alias. -/
theorem resolvePath_enrols {walked : String} {relations : List String}
    (hname : IsScopeName names userAlias)
    (hrel : ∀ r ∈ relations, Text.isIdentifier r.toList = true) (hw : Tame walked.toList)
    (h : (resolvePath env kind head userAlias g id walked relations).Runs b (g', id') b') :
    b.Enrols names b' := by
  replace h := runs_resolvePath h
  induction h with
  | stay => exact .refl _
  | last h => exact resolveStep_enrols hname h
  | known _ _ ih =>
    obtain ⟨hr, hrest⟩ := List.forall_mem_cons.1 hrel
    exact ih hrest (tame_path hw hr)
  | step _ h₁ _ ih =>
    obtain ⟨hr, hrest⟩ := List.forall_mem_cons.1 hrel
    have hpath := tame_path hw hr
    exact (resolveStep_enrols ⟨hpath, .inr (by simp)⟩ h₁).trans (ih hrest hpath)

/-! ## Elements -/

/-- The names of a `FROM` clause are identifiers. -/
structure FromList.Named (f : FromList) : Prop where
  root : f.root.Named
  joins : ∀ j ∈ f.joins, j.source.Named

theorem Query.Read.named {s : Scanner} {t : Text} {q : Query} (h : q.Read s t) : q.source.Named := by
  obtain ⟨g, -, hread⟩ := h.source
  exact ⟨hread.root, fun j hj => (hread.joins j hj).named⟩

theorem Source.Named.isScopeName {src : Source} (h : src.Named) (hn : src.effectiveAlias ∈ names) :
    IsScopeName names src.effectiveAlias :=
  ⟨Text.tame_of_isIdentifier h.effectiveAlias, .inl hn⟩

theorem resolveRoot_enrols {root : Source} (hroot : root.Named) (hn : root.effectiveAlias ∈ names)
    (h : (resolveRoot env root).Runs b g b') : b.Enrols names b' := by
  obtain ⟨c, id, index, -, hbind, -⟩ := runs_resolveRoot h
  exact bindComponent_enrols (hroot.isScopeName hn) hbind

/-- Before its condition is resolved, a join binds its alias. -/
theorem walk_enrols {j : Joined} {start : AliasId} (hj : j.source.Named)
    (hn : j.source.effectiveAlias ∈ names)
    (h : (resolvePath env j.kind (j.source.path.headD "") j.source.effectiveAlias g start
      (j.source.path.headD "") (j.source.path.drop 1)).Runs b (g', id) b') :
    b.Enrols names b' := by
  refine resolvePath_enrols (hj.isScopeName hn) (fun r hr => hj.path r (List.mem_of_mem_drop hr)) ?_ h
  obtain ⟨head, rest, hp⟩ := List.exists_cons_of_ne_nil hj.path_ne_nil
  rw [hp]
  exact Text.tame_of_isIdentifier (hj.path head (hp ▸ List.mem_cons_self))

theorem resolveJoin_enrols {declared : List String} {j : Joined} (hsub : subquery.Nests env)
    (hg : g.Over env scopes lo b) (hj : j.source.Named) (hn : j.source.effectiveAlias ∈ names)
    (h : (resolveJoin env subquery param declared g j).Runs b g' b') : b.Enrols names b' := by
  obtain ⟨start, g₁, id, b₁, g₂, -, hstart, -, hpath, hattaches, -⟩ := runs_resolveJoin h
  have hwalk := walk_enrols hj hn hpath
  cases hattaches with
  | nothing => exact hwalk
  | condition _ h =>
    obtain ⟨hg₁, -⟩ := resolvePath_over hg (JoinGraph.contains_iff.1 hstart) hpath
    exact hwalk.trans (.of_keeps (resolveExpr_keeps hsub hg₁.tidy h))

theorem resolveJoins_enrols {declared : List String} {js : List Joined} (hsub : subquery.Nests env)
    (hg : g.Over env scopes lo b) (hjs : ∀ j ∈ js, j.source.Named)
    (hn : ∀ j ∈ js, j.source.effectiveAlias ∈ names)
    (h : Runs (js.foldlM (resolveJoin env subquery param declared) g) b g' b') :
    b.Enrols names b' := by
  refine (runs_foldlM_keeps (I := fun g c => g.Over env scopes lo c ∧ b.Enrols names c) ?_
    ⟨hg, .refl b⟩ h).2
  rintro j hj g₁ b₁ g₂ b₂ ⟨hg₁, henrols⟩ h
  exact ⟨resolveJoin_over hsub hg₁ h,
    henrols.trans (resolveJoin_enrols hsub hg₁ (hjs j hj) (hn j hj) h)⟩

theorem resolveFrom_enrols {f : FromList} (hsub : subquery.Nests env) (hb : b.Tidy env)
    (hscope : b.resolver.scope = []) (hf : f.Named)
    (h : (resolveFrom env subquery param f).Runs b g b') : b.Enrols f.aliases b' := by
  obtain ⟨g₁, b₁, h1, h2⟩ := runs_bind.1 h
  refine (resolveRoot_enrols hf.root List.mem_cons_self h1).trans
    (resolveJoins_enrols hsub (resolveRoot_over hb hscope h1) hf.joins (fun j hj => ?_) h2)
  exact List.mem_cons_of_mem _ (List.mem_map_of_mem hj)

end ObjectQuery
