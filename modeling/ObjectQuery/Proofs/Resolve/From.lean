import ObjectQuery.Proofs.Resolve.Expr
import ObjectQuery.Proofs.Resolve.Join
import ObjectQuery.Resolve.From

/-! # A `FROM` clause is resolved join by join

Each join adds new nodes at the end of the graph and attaches its condition to the last of them.
What holds of the graph before (`JoinGraph.Sound`) holds of it afterwards, so that in the end no
node is joined on one that comes after it.

* `runs_resolvePath`, `runs_resolveJoin`: what a run of one join consists of;
* `resolvePath_spec`, `resolveJoin_spec`: one join;
* `resolveFrom_spec`: the whole clause. -/

namespace ObjectQuery

open Resolve

variable {env : Surroundings} {R : Origin} {T : Text} {subquery : ResolveSubquery}
  {param n m : Nat} {b b' : Bindings} {g g' : JoinGraph} {id : AliasId}
  {kind : JoinKind} {head userAlias : String}

/-! ## Runs of the steps -/

section
variable {id' : AliasId} {declared : List String} {join relation : String}
  {root : Source} {j : Joined}

theorem runs_resolveStep
    (h : (resolveStep env g kind head id relation userAlias).Runs b (g', id') b') :
    ∃ c, b.component? id = some c ∧ ∃ r, c.relation? relation = some r ∧
      (expandRelation env g id c r kind userAlias).Runs b (g', id') b' := by
  obtain ⟨c, _, h1, h⟩ := runs_bind.1 h
  obtain ⟨hc, rfl⟩ := runs_componentOf.1 h1
  cases hr : c.relation? relation with
  | none => rw [hr] at h; exact absurd h not_runs_throw
  | some r =>
    rw [hr] at h
    exact ⟨c, hc, r, hr, h⟩

/-- A walk along relations takes a step for each but those whose path is joined already. The last one
is joined in any case, under the alias of the join. -/
inductive Walks (env : Surroundings) (kind : JoinKind) (head userAlias : String) :
    JoinGraph → AliasId → String → List String → Bindings → JoinGraph → AliasId → Bindings → Prop
  | stay {g : JoinGraph} {id : AliasId} {walked : String} {b : Bindings} :
    Walks env kind head userAlias g id walked [] b g id b
  | last {g g' : JoinGraph} {id id' : AliasId} {walked relation : String} {b b' : Bindings}
    (h : (resolveStep env g kind head id relation userAlias).Runs b (g', id') b') :
    Walks env kind head userAlias g id walked [relation] b g' id' b'
  | known {g g' : JoinGraph} {id known id' : AliasId} {walked relation next : String}
    {rest : List String} {b b' : Bindings}
    (hk : b.resolver.lookupLocal? (walked ++ "." ++ relation) = some known)
    (h : Walks env kind head userAlias g known (walked ++ "." ++ relation) (next :: rest) b
      g' id' b') :
    Walks env kind head userAlias g id walked (relation :: next :: rest) b g' id' b'
  | step {g g₁ g' : JoinGraph} {id id₁ id' : AliasId} {walked relation next : String}
    {rest : List String} {b b₁ b' : Bindings}
    (hk : b.resolver.lookupLocal? (walked ++ "." ++ relation) = none)
    (h₁ : (resolveStep env g kind head id relation (walked ++ "." ++ relation)).Runs b (g₁, id₁) b₁)
    (h : Walks env kind head userAlias g₁ id₁ (walked ++ "." ++ relation) (next :: rest) b₁
      g' id' b') :
    Walks env kind head userAlias g id walked (relation :: next :: rest) b g' id' b'

theorem runs_resolvePath {walked : String} {relations : List String}
    (h : (resolvePath env kind head userAlias g id walked relations).Runs b (g', id') b') :
    Walks env kind head userAlias g id walked relations b g' id' b' := by
  induction relations generalizing g id walked b with
  | nil =>
    obtain ⟨⟨⟩, rfl⟩ := runs_pure.1 h
    exact .stay
  | cons relation rest ih =>
    cases rest with
    | nil => exact .last h
    | cons next rest =>
      obtain ⟨_, _, h1, h⟩ := runs_bind.1 h
      obtain ⟨rfl, rfl⟩ := runs_get.1 h1
      cases hk : b.resolver.lookupLocal? (walked ++ "." ++ relation) with
      | some known =>
        simp only [hk] at h
        exact .known hk (ih h)
      | none =>
        simp only [hk] at h
        obtain ⟨⟨g₁, id₁⟩, b₁, h1, h2⟩ := runs_bind.1 h
        exact .step hk h1 (ih h2)

theorem runs_resolveStart (h : (resolveStart g declared join head).Runs b id b') :
    b' = b ∧ b.resolver.lookup? head = some id ∧ g.contains id = true := by
  have hunknown {i : AliasId} {b₁ : Bindings} : ¬ Runs (if declared.contains head then
      throw (.ambiguousJoin .join join head) else throw (.unknownAlias .join head)) b i b₁ := by
    split <;> exact not_runs_throw
  obtain ⟨id?, _, h1, h2⟩ := runs_bind.1 h
  obtain ⟨hl, rfl⟩ := runs_lookup?.1 h1
  split at h2
  · split at h2
    · rename_i hc
      obtain ⟨rfl, rfl⟩ := runs_pure.1 h2
      exact ⟨rfl, hl, hc⟩
    · exact absurd h2 hunknown
  · exact absurd h2 hunknown

/-- The column that keys records is one of their component. -/
theorem runs_resolveIndexColumn {text : Text} {column : String}
    (h : (resolveIndexColumn userAlias id text).Runs b column b') :
    b' = b ∧ Tame text ∧ ∃ c, b.component? id = some c ∧ ∃ x ∈ c.columns, x.name = column := by
  have hfind {f : Component → Resolve String}
      (h : Runs (Resolve.componentOf .indexBy userAlias id >>= f) b column b') :
      ∃ c, b.component? id = some c ∧ (f c).Runs b column b' := by
    obtain ⟨c, _, h1, h2⟩ := runs_bind.1 h
    obtain ⟨hc, rfl⟩ := runs_componentOf.1 h1
    exact ⟨c, hc, h2⟩
  simp only [resolveIndexColumn] at h
  split at h
  · rename_i hp
    obtain ⟨c, hc, h⟩ := hfind h
    split at h
    · rename_i x hx
      obtain ⟨rfl, rfl⟩ := runs_pure.1 h
      exact ⟨rfl, Text.tame_of_path? hp, c, hc, x, Component.mem_of_column? hx, rfl⟩
    · exact absurd h not_runs_throw
  · rename_i hp
    obtain ⟨id?, _, h1, h2⟩ := runs_bind.1 h
    obtain ⟨-, rfl⟩ := runs_lookup?.1 h1
    split at h2
    · obtain ⟨c, hc, h⟩ := hfind h2
      split at h
      · rename_i x hx
        obtain ⟨rfl, rfl⟩ := runs_pure.1 h
        exact ⟨rfl, Text.tame_of_path? hp, c, hc, x, Component.mem_of_column? hx, rfl⟩
      · exact absurd h not_runs_throw
    · exact absurd h2 not_runs_throw
  · exact absurd h not_runs_malformed

theorem runs_resolveRoot (h : (resolveRoot env root).Runs b g b') :
    ∃ c id index, env.describe .from (root.path.headD "") = .ok c ∧
      (bindComponent root.effectiveAlias c).Runs b id b' ∧
      g = ⟨JoinNode.ofRoot id root.effectiveAlias c index, []⟩ ∧ root.TameIndex ∧
      ∀ column ∈ index, ∃ c, b'.component? id = some c ∧ ∃ x ∈ c.columns, x.name = column := by
  obtain ⟨c, _, h1, h⟩ := runs_bind.1 h
  obtain ⟨hc, rfl⟩ := runs_lift.1 h1
  obtain ⟨id, b₁, h2, h⟩ := runs_bind.1 h
  dsimp only at h
  cases ht : root.indexBy with
  | some text =>
    rw [ht] at h
    obtain ⟨index, b₂, h3, h4⟩ := runs_bind.1 h
    obtain ⟨rfl, rfl⟩ := runs_pure.1 h4
    obtain ⟨column, h5, rfl⟩ := runs_map.1 h3
    obtain ⟨rfl, htame, hx⟩ := runs_resolveIndexColumn h5
    refine ⟨c, id, some column, hc, h2, rfl, fun x hx => ?_, ?_⟩
    · cases ht.symm.trans hx
      exact htame
    · rintro _ ⟨⟩
      exact hx
  | none =>
    rw [ht] at h
    obtain ⟨index, b₂, h3, h4⟩ := runs_bind.1 h
    obtain ⟨rfl, rfl⟩ := runs_pure.1 h3
    obtain ⟨rfl, rfl⟩ := runs_pure.1 h4
    refine ⟨c, id, none, hc, h2, rfl, fun x hx => ?_, ?_⟩
    · cases ht.symm.trans hx
    · rintro _ ⟨⟩

/-- The records of an occurrence may be keyed, by a column of its component. -/
inductive JoinGraph.Indexes (g : JoinGraph) (b : Bindings) (id : AliasId) : JoinGraph → Prop
  | nothing : Indexes g b id g
  | column {c : Component} {x : Column} (hc : b.component? id = some c) (hx : x ∈ c.columns) :
    Indexes g b id (g.indexBy id x.name)

theorem runs_indexBy {index : Option Text}
    (h : Runs (match index with
      | none => return g
      | some text => do return g.indexBy id (← resolveIndexColumn userAlias id text)) b g' b') :
    b' = b ∧ g.Indexes b id g' ∧ ∀ text ∈ index, Tame text := by
  cases index with
  | none =>
    obtain ⟨rfl, rfl⟩ := runs_pure.1 h
    exact ⟨rfl, .nothing, nofun⟩
  | some text =>
    obtain ⟨column, _, h1, h2⟩ := runs_bind.1 h
    obtain ⟨rfl, ht, c, hc, x, hx, rfl⟩ := runs_resolveIndexColumn h1
    obtain ⟨rfl, rfl⟩ := runs_pure.1 h2
    refine ⟨rfl, .column hc hx, ?_⟩
    rintro _ ⟨⟩
    exact ht

/-- The condition of a join, if it has any, is attached to an occurrence. -/
inductive JoinGraph.Attaches (env : Surroundings) (subquery : ResolveSubquery) (param : Nat)
    (declared : List String) (j : Joined) (g : JoinGraph) (id : AliasId) (b : Bindings) :
    JoinGraph → Bindings → Prop
  | nothing (hj : j.condition = none) : Attaches env subquery param declared j g id b g b
  | condition {k : Condition} {e : Expr} {b' : Bindings} (hj : j.condition = some k)
    (h : (resolveExpr env.config.scanner subquery .join {}
      (some ⟨".".intercalate j.source.path, declared⟩) (param + k.segment.firstParam)
        k.segment.text).Runs b e b') :
    Attaches env subquery param declared j g id b (g.attach id ⟨k.kind, e⟩) b'

/-- A join starts from a node, walks along its path, and is given its condition and its key. -/
theorem runs_resolveJoin (h : (resolveJoin env subquery param declared g j).Runs b g' b') :
    ∃ start g₁ id b₁ g₂, b.resolver.lookup? (j.source.path.headD "") = some start ∧
      g.contains start = true ∧ b.resolver.lookupLocal? j.source.effectiveAlias = none ∧
      (resolvePath env j.kind (j.source.path.headD "") j.source.effectiveAlias g start
        (j.source.path.headD "") (j.source.path.drop 1)).Runs b (g₁, id) b₁ ∧
      g₁.Attaches env subquery param declared j id b₁ g₂ b' ∧ g₂.Indexes b' id g' ∧
      j.source.TameIndex := by
  obtain ⟨start, _, h1, hrest⟩ := runs_bind.1 h
  obtain ⟨rfl, hl, hc⟩ := runs_resolveStart h1
  obtain ⟨_, _, h2, hrest⟩ := runs_bind.1 hrest
  obtain ⟨rfl, rfl⟩ := runs_get.1 h2
  split at hrest
  · exact absurd hrest not_runs_malformed
  rename_i hnew
  rw [Bool.not_eq_true, Option.isSome_eq_false_iff, Option.isNone_iff_eq_none] at hnew
  obtain ⟨⟨g₁, id⟩, b₁, hpath, hrest⟩ := runs_bind.1 hrest
  dsimp only at hrest
  cases hj : j.condition with
  | none =>
    rw [hj] at hrest
    obtain ⟨_, _, h3, h4⟩ := runs_bind.1 hrest
    obtain ⟨rfl, rfl⟩ := runs_pure.1 h3
    obtain ⟨rfl, hindexes, ht⟩ := runs_indexBy h4
    exact ⟨start, g₁, id, _, g₁, hl, hc, hnew, hpath, .nothing hj, hindexes, ht⟩
  | some k =>
    rw [hj] at hrest
    obtain ⟨e, b₂, h3, hrest⟩ := runs_bind.1 hrest
    obtain ⟨_, _, h4, h5⟩ := runs_bind.1 hrest
    obtain ⟨rfl, rfl⟩ := runs_pure.1 h4
    obtain ⟨rfl, hindexes, ht⟩ := runs_indexBy h5
    exact ⟨start, g₁, id, b₁, _, hl, hc, hnew, hpath, .condition hj h3, hindexes, ht⟩

end

/-! ## The last node of a graph -/

section
variable {ns : List JoinNode} {j k : JoinNode} {c : JoinCondition} {a : AliasId}

theorem updateFirst_append {f : JoinNode → JoinNode} (h : ∀ i ∈ ns, i.id ≠ j.id) :
    JoinGraph.update.updateFirst j.id f (ns ++ [j]) = ns ++ [f j] := by
  induction ns with
  | nil => simp [JoinGraph.update.updateFirst]
  | cons i ns ih =>
    rw [List.cons_append, JoinGraph.update.updateFirst, if_neg (h i List.mem_cons_self),
      ih fun i hi => h i (List.mem_cons_of_mem _ hi), List.cons_append]

/-- Changing the node of an alias changes the last node, when it has this alias. -/
theorem JoinGraph.update_last {f : JoinNode → JoinNode} (h : (g.add (ns ++ [j])).aliases.Nodup) :
    (g.add (ns ++ [j])).update j.id f = g.add (ns ++ [f j]) := by
  rw [aliases, nodes_add, ← List.append_assoc, List.map_append, List.nodup_append] at h
  have hne : ∀ i ∈ g.nodes ++ ns, i.id ≠ j.id := fun i hi =>
    h.2.2 _ (List.mem_map_of_mem hi) _ (by simp)
  have hroot : (g.add (ns ++ [j])).root.id ≠ j.id :=
    hne g.root (List.mem_append_left _ List.mem_cons_self)
  rw [update, if_neg hroot]
  show JoinGraph.mk g.root _ = JoinGraph.mk g.root _
  congr 1
  show update.updateFirst j.id f (g.joins ++ (ns ++ [j])) = g.joins ++ (ns ++ [f j])
  rw [← List.append_assoc, updateFirst_append, List.append_assoc]
  intro i hi
  refine hne i ?_
  rcases List.mem_append.1 hi with hi | hi
  · exact List.mem_append_left _ (List.mem_cons_of_mem _ hi)
  · exact List.mem_append_right _ hi

/-- The last node may be replaced by one that reads more, as nothing comes after it. -/
theorem JoinGraph.Sound.replaceLast (h : (g.add (ns ++ [j])).Sound env n) (hn : n ≤ m)
    (hid : k.id = j.id) (hd : k.Derived env) (hb : k.dependsOn.Below m) :
    (g.add (ns ++ [k])).Sound env m := by
  have hold : ∀ i ∈ g.nodes ++ ns, i ∈ (g.add (ns ++ [j])).nodes := fun i hi => by
    rw [nodes_add, ← List.append_assoc]
    exact List.mem_append_left _ hi
  have hall {P : JoinNode → Prop} (h1 : ∀ i ∈ g.nodes ++ ns, P i) (h2 : P k) :
      ∀ i ∈ (g.add (ns ++ [k])).nodes, P i := by
    intro i hi
    rw [nodes_add, ← List.append_assoc] at hi
    rcases List.mem_append.1 hi with hi | hi
    · exact h1 i hi
    · exact List.mem_singleton.1 hi ▸ h2
  refine ⟨hall (fun i hi => h.derived i (hold i hi)) hd, ?_, ?_,
    hall (fun i hi => Nat.lt_of_lt_of_le (h.id_lt i (hold i hi)) hn) ?_,
    hall (fun i hi => (h.below i (hold i hi)).mono hn) hb⟩
  · have := h.nodup
    simpa [aliases, nodes_add, hid] using this
  · have := h.declared
    rw [nodes_add, ← List.append_assoc, List.pairwise_append] at this ⊢
    refine ⟨this.1, List.pairwise_singleton _ _, fun i hi l hl => ?_⟩
    rw [List.mem_singleton.1 hl, hid]
    exact this.2.2 i hi j (List.mem_singleton_self j)
  · rw [hid]
    refine Nat.lt_of_lt_of_le (h.id_lt j ?_) hn
    simp [nodes_add]

theorem JoinNode.mem_dependsOn_attach (hj : j.condition = none)
    (h : a ∈ ({ j with condition := some c } : JoinNode).dependsOn) :
    a ∈ j.dependsOn ∨ a ∈ c.expr.reads := by
  cases j with
  | mk use structural condition extra =>
    cases (show condition = none from hj)
    obtain ⟨kind, e⟩ := c
    cases kind <;>
    · simp only [JoinNode.dependsOn, JoinCondition.readsWith, AliasSet.mem_erase,
        AliasSet.mem_union] at h ⊢
      grind

theorem JoinGraph.conditions_add :
    (g.add ns).conditions = g.conditions ++ ns.filterMap (·.condition) := by
  rw [conditions, nodes_add, List.filterMap_append]; rfl

theorem filterMap_condition_eq_nil (h : ∀ i ∈ ns, i.condition = none) :
    ns.filterMap (·.condition) = [] :=
  List.filterMap_eq_nil_iff.2 h

end

/-! ## Paths -/

theorem ne_of_mem_of_isIdentifier {name : String} {c : Char} (hn : Text.isIdentifier name.toList = true)
    (hc : isNameChar c = false) {other : String} (ho : c ∈ other.toList) : other ≠ name := by
  rintro rfl
  have := List.all_eq_true.1 (Text.all_isNameChar_of_isIdentifier hn) c ho
  rw [hc] at this
  cases this

theorem AliasScope.get?_cons_of_ne {scope : AliasScope} {name other : String} (h : other ≠ name) :
    AliasScope.get? ((other, id) :: scope) name = scope.get? name := by
  simp [AliasScope.get?, h]

theorem tame_path {walked relation : String} (hw : Tame walked.toList)
    (hr : Text.isIdentifier relation.toList = true) : Tame (walked ++ "." ++ relation).toList := by
  rw [String.toList_append, String.toList_append]
  exact (hw.append (by decide)).append (Text.tame_of_isIdentifier hr)

/-- Joining a path leaves identifiers as they are, for a path holds a point. -/
theorem lookupLocal?_of_path {b₁ : Bindings} {walked relation : String}
    (ha : Text.isIdentifier userAlias.toList = true)
    (hscope : b₁.resolver.scope = (walked ++ "." ++ relation, id) :: b.resolver.scope) :
    b₁.resolver.lookupLocal? userAlias = b.resolver.lookupLocal? userAlias := by
  rw [Resolver.lookupLocal?, hscope, AliasScope.get?_cons_of_ne]
  · rfl
  · exact ne_of_mem_of_isIdentifier ha (by decide : isNameChar '.' = false) (by simp)

theorem JoinGraph.GrowsTo.trans {b₁ : Bindings} {g₁ : JoinGraph} {id₁ : AliasId}
    (h : g.GrowsTo env b g₁ id₁ b₁) (h' : g₁.GrowsTo env b₁ g' id b') : g.GrowsTo env b g' id b' := by
  obtain ⟨ns, j, rfl, -, hns⟩ := h.nodes
  obtain ⟨ns', j', rfl, hid, hns'⟩ := h'.nodes
  refine ⟨⟨ns ++ [j] ++ ns', j', ?_, hid, fun i hi => ?_⟩, h'.sound, h.grows.trans h'.grows⟩
  · simp [JoinGraph.add]
  · rw [List.append_assoc] at hi
    exact (List.mem_append.1 hi).elim (hns i) (hns' i)

theorem JoinGraph.GrowsTo.id_lt (h : g.GrowsTo env b g' id b') : id < b'.size := by
  obtain ⟨ns, j, rfl, rfl, -⟩ := h.nodes
  exact h.sound.id_lt j (by simp [JoinGraph.nodes_add])

theorem resolveStep_spec {relation : String} {id' : AliasId} (hb : b.Sound env)
    (hg : g.Sound env b.size) (hid : id < b.size) (ha : Tame userAlias.toList)
    (hnew : b.resolver.lookupLocal? userAlias = none)
    (h : (resolveStep env g kind head id relation userAlias).Runs b (g', id') b') :
    g.GrowsTo env b g' id' b' ∧ b'.resolver.scope = (userAlias, id') :: b.resolver.scope := by
  obtain ⟨c, hc, r, hr, h⟩ := runs_resolveStep h
  have hc := hb.describes hc
  exact expandRelation_spec hb hg hid hc (hc.hasRelation hr) ha hnew h

/-- Walking along relations adds nodes, the last of which is reached under the given alias. -/
theorem resolvePath_spec {walked : String} {relations : List String} {id' : AliasId}
    (hb : b.Sound env) (hg : g.Sound env b.size) (hid : id < b.size) (hne : relations ≠ [])
    (hrel : ∀ r ∈ relations, Text.isIdentifier r.toList = true) (hw : Tame walked.toList)
    (ha : Text.isIdentifier userAlias.toList = true)
    (hnew : b.resolver.lookupLocal? userAlias = none)
    (h : (resolvePath env kind head userAlias g id walked relations).Runs b (g', id') b') :
    g.GrowsTo env b g' id' b' := by
  replace h := runs_resolvePath h
  induction h with
  | stay => exact absurd rfl hne
  | last h => exact (resolveStep_spec hb hg hid (Text.tame_of_isIdentifier ha) hnew h).1
  | known hk _ ih =>
    obtain ⟨hr, hrest⟩ := List.forall_mem_cons.1 hrel
    exact ih hb hg (hb.lookupLocal hk) (List.cons_ne_nil _ _) hrest (tame_path hw hr) hnew
  | step hk h₁ _ ih =>
    obtain ⟨hr, hrest⟩ := List.forall_mem_cons.1 hrel
    obtain ⟨hgrows, hscope⟩ := resolveStep_spec hb hg hid (tame_path hw hr) hk h₁
    exact hgrows.trans (ih hgrows.grows.sound hgrows.sound hgrows.id_lt (List.cons_ne_nil _ _)
      hrest (tame_path hw hr) ((lookupLocal?_of_path ha hscope).trans hnew))

/-! ## Elements -/

theorem resolveRoot_spec {root : Source} (hb : b.Sound env) (hscope : b.resolver.scope = [])
    (hroot : root.Named) (h : (resolveRoot env root).Runs b g b') :
    g.Sound env b'.size ∧ b.Grows env b' ∧ root.TameIndex ∧ g.root.condition = none ∧
      g.joins = [] := by
  obtain ⟨component, id, index, hc, hbind, rfl, ht, -⟩ := runs_resolveRoot h
  have hc := Surroundings.describe_eq_ok hc
  have hnew : b.resolver.lookupLocal? root.effectiveAlias = none := by
    rw [Resolver.lookupLocal?, hscope]; rfl
  obtain ⟨hadd, -⟩ := bindComponent_spec hb hc (Text.tame_of_isIdentifier hroot.effectiveAlias)
    hnew hbind
  have hj : JoinNode.JoinedOn env [] (JoinNode.ofRoot id root.effectiveAlias component index) :=
    ⟨hc, nofun, nofun, rfl, nofun⟩
  refine ⟨⟨?_, ?_, List.pairwise_singleton _ _, ?_, ?_⟩, hadd.grows, ht, rfl, rfl⟩
  · exact fun j hmem => List.mem_singleton.1 hmem ▸ hj.derived
  · exact List.pairwise_singleton _ _
  · intro j hmem
    rw [List.mem_singleton.1 hmem, hadd.size_eq]
    exact hadd.id_eq ▸ Nat.lt_succ_self _
  · intro j hmem a ha
    rw [List.mem_singleton.1 hmem] at ha
    cases hj.dependsOn ha

/-- What is known of a join before it is resolved: its names are identifiers, and its condition
stands in the text. -/
structure Joined.Ready (s : Scanner) (T : Text) (param : Nat) (j : Joined) : Prop where
  named : j.source.Named
  relation : 2 ≤ j.source.path.length
  stands : ∀ k ∈ j.condition, ∃ off, s.Stands T off (k.segment.after param).firstParam k.segment.text

/-- What resolving a join does: the graph grows, and so do its conditions by that of the join. -/
structure JoinGraph.Takes (env : Surroundings) (R : Origin) (T : Text) (param : Nat)
    (g : JoinGraph) (b : Bindings) (j : Joined) (g' : JoinGraph) (b' : Bindings) : Prop where
  sound : g'.Sound env b'.size
  grows : b.Grows env b'
  root : g'.root = g.root
  tame : j.source.TameIndex
  conditions : ∃ cs, g'.conditions = g.conditions ++ cs ∧
    List.Forall₂ (ConditionFrom env R T param) j.condition.toList cs

/-- Keying the records of the last node changes neither what it is joined on nor its condition. -/
theorem indexes_spec {ns : List JoinNode} {n : JoinNode}
    (hg : (g.add (ns ++ [n])).Sound env b.size) (hid : n.id = id)
    (h : (g.add (ns ++ [n])).Indexes b id g') :
    g'.Sound env b.size ∧ g'.root = g.root ∧
      g'.conditions = (g.add (ns ++ [n])).conditions := by
  cases h with
  | nothing => exact ⟨hg, rfl, rfl⟩
  | column hc hx =>
    rw [JoinGraph.indexBy, ← hid, JoinGraph.update_last hg.nodup]
    have hn : n ∈ (g.add (ns ++ [n])).nodes := by simp [JoinGraph.nodes_add]
    refine ⟨hg.replaceLast (Nat.le_refl _) rfl ?_ ?_, rfl, ?_⟩
    · obtain ⟨hd, hs, he⟩ := hg.derived n hn
      exact ⟨hd, hs, he⟩
    · have := hg.below n hn
      cases n
      exact this
    · simp only [JoinGraph.conditions_add, List.filterMap_append]
      rfl

/-- Attaching a condition to the last node adds it to the conditions. -/
theorem attach_spec {ns : List JoinNode} {n : JoinNode} {c : JoinCondition}
    (hg : (g.add (ns ++ [n])).Sound env b.size) (hid : n.id = id)
    (hcond : ∀ k ∈ ns ++ [n], k.condition = none) (hle : b.size ≤ b'.size)
    (hc : c.expr.reads.Below b'.size) :
    (g.add (ns ++ [n])).attach id c = g.add (ns ++ [{ n with condition := some c }]) ∧
      (g.add (ns ++ [{ n with condition := some c }])).Sound env b'.size ∧
      (g.add (ns ++ [{ n with condition := some c }])).conditions = g.conditions ++ [c] := by
  have hn : n ∈ (g.add (ns ++ [n])).nodes := by simp [JoinGraph.nodes_add]
  refine ⟨?_, hg.replaceLast hle rfl ?_ ?_, ?_⟩
  · rw [JoinGraph.attach, ← hid, JoinGraph.update_last hg.nodup]
  · obtain ⟨hd, hs, he⟩ := hg.derived n hn
    exact ⟨hd, hs, he⟩
  · intro a ha
    rcases JoinNode.mem_dependsOn_attach (hcond n (by simp)) ha with ha | ha
    · exact Nat.lt_of_lt_of_le (hg.below n hn a ha) hle
    · exact hc a ha
  · have hns := filterMap_condition_eq_nil fun i hi => hcond i (List.mem_append_left _ hi)
    rw [JoinGraph.conditions_add, List.filterMap_append, hns]
    rfl

/-- Walking along the path of a join adds nodes, the last of which is the occurrence to be joined. -/
theorem Joined.Ready.growsTo {s : Scanner} {j : Joined} {start : AliasId}
    (hj : j.Ready s T param) (hb : b.Sound env) (hg : g.Sound env b.size)
    (hstart : b.resolver.lookup? (j.source.path.headD "") = some start)
    (hnew : b.resolver.lookupLocal? j.source.effectiveAlias = none)
    (h : (resolvePath env j.kind (j.source.path.headD "") j.source.effectiveAlias g start
      (j.source.path.headD "") (j.source.path.drop 1)).Runs b (g', id) b') :
    g.GrowsTo env b g' id b' := by
  have hhead : Tame (j.source.path.headD "").toList := by
    obtain ⟨head, rest, hp⟩ := List.exists_cons_of_ne_nil hj.named.path_ne_nil
    rw [hp]
    exact Text.tame_of_isIdentifier (hj.named.path head (hp ▸ List.mem_cons_self))
  have hne : j.source.path.drop 1 ≠ [] := fun he => by
    have := hj.relation
    rw [List.drop_eq_nil_iff] at he
    omega
  exact resolvePath_spec hb hg (hb.lookup hstart).1 hne
    (fun r hr => hj.named.path r (List.mem_of_mem_drop hr)) hhead hj.named.effectiveAlias hnew h

theorem resolveJoin_spec {declared : List String} {j : Joined} (hsub : subquery.Yields env R)
    (hb : b.Sound env) (hg : g.Sound env b.size) (hj : j.Ready env.config.scanner T param)
    (h : (resolveJoin env subquery param declared g j).Runs b g' b') :
    g.Takes env R T param b j g' b' := by
  obtain ⟨start, g₁, id, b₁, g₂, hstart, -, hnew, hpath, hattaches, hindexes, ht⟩ :=
    runs_resolveJoin h
  have hgrows := hj.growsTo hb hg hstart hnew hpath
  obtain ⟨ns, n, rfl, hid, hcond⟩ := hgrows.nodes
  cases hattaches with
  | nothing hc =>
    obtain ⟨hs, hroot, hcs⟩ := indexes_spec hgrows.sound hid hindexes
    refine ⟨hs, hgrows.grows, hroot, ht, [], ?_, by rw [hc]; exact .nil⟩
    rw [hcs, JoinGraph.conditions_add, filterMap_condition_eq_nil hcond]
  | @condition k e _ hc h =>
    obtain ⟨off, hs⟩ := hj.stands k hc
    obtain ⟨hext, he, hreads⟩ :=
      resolveExpr_spec hsub hgrows.grows.sound BareWords.Sound.empty hs h
    obtain ⟨heq, hsound, hcs⟩ := attach_spec (c := ⟨k.kind, e⟩) hgrows.sound hid hcond
      hext.size_le hreads
    rw [heq] at hindexes
    obtain ⟨hs, hroot, hcs'⟩ := indexes_spec hsound hid hindexes
    refine ⟨hs, hgrows.grows.trans hext.grows, hroot, ht, [_], hcs'.trans hcs, ?_⟩
    rw [hc]
    exact .cons ⟨rfl, he⟩ .nil

theorem resolveJoins_spec {declared : List String} {js : List Joined} (hsub : subquery.Yields env R)
    (hb : b.Sound env) (hg : g.Sound env b.size)
    (hj : ∀ j ∈ js, j.Ready env.config.scanner T param)
    (h : Runs (js.foldlM (resolveJoin env subquery param declared) g) b g' b') :
    g'.Sound env b'.size ∧ b.Grows env b' ∧ g'.root = g.root ∧ (∀ j ∈ js, j.source.TameIndex) ∧
      ∃ cs, g'.conditions = g.conditions ++ cs ∧
        List.Forall₂ (ConditionFrom env R T param) (js.filterMap (·.condition)) cs := by
  induction js generalizing g b with
  | nil =>
    obtain ⟨rfl, rfl⟩ := runs_foldlM_nil.1 h
    exact ⟨hg, .refl hb, rfl, nofun, [], (List.append_nil _).symm, .nil⟩
  | cons j js ih =>
    obtain ⟨g₁, b₁, h1, h2⟩ := runs_foldlM_cons.1 h
    obtain ⟨hs, hgr, hroot, ht, cs, hcs, hc⟩ :=
      resolveJoin_spec hsub hb hg (hj j List.mem_cons_self) h1
    obtain ⟨hs', hgr', hroot', ht', cs', hcs', hc'⟩ :=
      ih hgr.sound hs (fun i hi => hj i (List.mem_cons_of_mem _ hi)) h2
    refine ⟨hs', hgr.trans hgr', hroot'.trans hroot, fun i hi => ?_, cs ++ cs', ?_, ?_⟩
    · exact (List.mem_cons.1 hi).elim (· ▸ ht) (ht' i)
    · rw [hcs', hcs, List.append_assoc]
    · rw [List.filterMap_cons]
      cases hk : j.condition with
      | none =>
        rw [hk] at hc
        cases hc
        exact hc'
      | some k =>
        rw [hk] at hc
        obtain ⟨⟩ | ⟨hk, ⟨⟩⟩ := hc
        exact .cons hk hc'

/-- A graph comes from the clause that it was resolved from. -/
theorem resolveFrom_spec {clause : FromList} (hsub : subquery.Yields env R) (hb : b.Sound env)
    (hscope : b.resolver.scope = []) (hroot : clause.root.Named)
    (hj : ∀ j ∈ clause.joins, j.Ready env.config.scanner T param)
    (h : (resolveFrom env subquery param clause).Runs b g b') :
    GraphFrom env R T param clause g ∧ g.Sound env b'.size ∧ b.Grows env b' := by
  obtain ⟨g₁, b₁, h1, h2⟩ := runs_bind.1 h
  obtain ⟨hs, hgr, ht, hnone, hnil⟩ := resolveRoot_spec hb hscope hroot h1
  obtain ⟨hs', hgr', hsame, ht', cs, hcs, hforall⟩ := resolveJoins_spec hsub hgr.sound hs hj h2
  have hc : g₁.conditions = [] := by
    simp [JoinGraph.conditions, JoinGraph.nodes, hnil, hnone]
  rw [hc, List.nil_append] at hcs
  exact ⟨⟨hcs ▸ hforall, hsame ▸ hnone, ⟨ht, ht'⟩, hs'.derived, hs'.nodup, hs'.declared⟩, hs',
    hgr.trans hgr'⟩

end ObjectQuery
