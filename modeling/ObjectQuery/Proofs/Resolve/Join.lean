import ObjectQuery.Proofs.Plan.Reads
import ObjectQuery.Proofs.Resolve.Bindings
import ObjectQuery.Resolve.Join

/-! # What the joins of a relation add to a graph

Each relation adds new occurrences at the end of the graph, joined on occurrences that are there
already by predicates over columns of the schema.

* `JoinGraph.Sound`: what holds of a graph while it is built;
* `runs_expandRelation`: what a run of a relation consists of;
* `expandRelation_spec`: the nodes that a relation adds. -/

namespace ObjectQuery

open Resolve

variable {env : Surroundings} {source target bridge : AliasId} {a : AliasId} {r : Relation}
  {c : Component} {n m : Nat}

/-! ## Generated predicates -/

theorem Generated.append {ps qs : List Piece} (hp : Generated env ps) (hq : Generated env qs) :
    Generated env (ps ++ qs) := by
  induction hp with
  | nil => exact hq
  | text ht _ ih => exact .text ht ih
  | column hc _ ih => exact .column hc ih
  | test hc hd _ ih => exact .test hc hd ih
  | @group ps qs' hp _ _ ih =>
    rw [List.append_assoc, List.cons_append]
    exact .group hp ih

theorem Expr.Generated.plain {ps : List Piece} (h : ObjectQuery.Generated env ps) :
    (Expr.plain ps).Generated env := ⟨ps, h, rfl⟩

section
variable {leftColumn rightColumn : String}

theorem generated_equation (hl : env.HasColumn leftColumn) (hr : env.HasColumn rightColumn)
    (left right : AliasId) : Generated env (equation left leftColumn right rightColumn) :=
  .column hl (.text (by decide) (.column hr .nil))

theorem generated_alternatives {first second : List Piece} (hf : Generated env first)
    (hs : Generated env second) : Generated env (alternatives first second) := by
  have h := Generated.group (hf.append (.text (t := " OR ".toList) (by decide) hs)) .nil
  simpa [alternatives] using h

theorem mem_equation {left right : AliasId}
    (h : a ∈ Piece.readsAll (equation left leftColumn right rightColumn)) :
    a = left ∨ a = right := by
  simpa [equation, Piece.readsAll, Piece.reads] using h

theorem mem_alternatives {first second : List Piece}
    (h : a ∈ Piece.readsAll (alternatives first second)) :
    a ∈ Piece.readsAll first ∨ a ∈ Piece.readsAll second := by
  simp only [alternatives, Piece.mem_readsAll, List.mem_append, List.mem_singleton] at h ⊢
  obtain ⟨p, (((rfl | hp) | rfl) | hp) | rfl, ha⟩ := h
  · exact absurd ha (AliasSet.not_mem_empty a)
  · exact .inl ⟨p, hp, ha⟩
  · exact absurd ha (AliasSet.not_mem_empty a)
  · exact .inr ⟨p, hp, ha⟩
  · exact absurd ha (AliasSet.not_mem_empty a)

end

theorem mem_plain {ps : List Piece} (h : a ∈ (Expr.plain ps).reads) : a ∈ Piece.readsAll ps :=
  mem_readsAll_canonicalPieces.1 (by rwa [Expr.reads_eq] at h)

/-- A predicate over two occurrences that the schema asks for. -/
structure Expr.Relates (env : Surroundings) (e : Expr) (left right : AliasId) : Prop where
  generated : e.Generated env
  reads : ∀ a ∈ e.reads, a = left ∨ a = right

theorem relates_plain_equation {leftColumn rightColumn : String} (hl : env.HasColumn leftColumn)
    (hr : env.HasColumn rightColumn) (left right : AliasId) :
    (Expr.plain (equation left leftColumn right rightColumn)).Relates env left right :=
  ⟨.plain (generated_equation hl hr _ _), fun _ ha => mem_equation (mem_plain ha)⟩

theorem relates_plain_alternatives {l₁ r₁ l₂ r₂ : String} (h₁ : env.HasColumn l₁)
    (h₂ : env.HasColumn r₁) (h₃ : env.HasColumn l₂) (h₄ : env.HasColumn r₂)
    (left right : AliasId) : (Expr.plain (alternatives (equation left l₁ right r₁)
      (equation left l₂ right r₂))).Relates env left right :=
  ⟨.plain (generated_alternatives (generated_equation h₁ h₂ _ _) (generated_equation h₃ h₄ _ _)),
    fun _ ha => (mem_alternatives (mem_plain ha)).elim mem_equation mem_equation⟩

/-- The schema has the columns of a relation. -/
structure Surroundings.HasRelation (env : Surroundings) (r : Relation) : Prop where
  localColumn : env.HasColumn r.localColumn
  foreignColumn : env.HasColumn r.foreignColumn

theorem Surroundings.Describes.hasRelation {name : String} (h : env.Describes c)
    (hr : c.relation? name = some r) : env.HasRelation r := by
  have hmem : r ∈ c.relations := List.mem_of_find?_eq_some hr
  have hcols : ∀ column ∈ [r.localColumn, r.foreignColumn], env.HasColumn column := by
    intro column hc
    refine ⟨c, h, ?_⟩
    simp only [Component.columnNames, List.mem_append, List.mem_flatMap]
    exact .inl (.inr ⟨r, hmem, hc⟩)
  exact ⟨hcols _ (by simp), hcols _ (by simp)⟩

theorem structuralPredicate_relates (hr : env.HasRelation r) (self : Bool) :
    (structuralPredicate source target self r).Relates env source target := by
  simp only [structuralPredicate]
  split
  · exact relates_plain_alternatives hr.1 hr.2 hr.2 hr.1 _ _
  · exact relates_plain_equation hr.1 hr.2 _ _

theorem bridgePredicate_relates {key : String} (hr : env.HasRelation r) (hk : env.HasColumn key)
    (symmetric : Bool) : (bridgePredicate source bridge key symmetric r).Relates env source bridge := by
  simp only [bridgePredicate]
  split
  · exact relates_plain_alternatives hk hr.1 hk hr.2 _ _
  · refine ⟨.plain ?_, fun a ha => ?_⟩
    · exact .group (generated_equation hk hr.1 _ _) .nil
    · have := mem_plain ha
      simp only [Piece.mem_readsAll, List.mem_append, List.mem_singleton] at this
      obtain ⟨p, (rfl | hp) | rfl, ha⟩ := this
      · exact absurd ha (AliasSet.not_mem_empty a)
      · exact mem_equation (Piece.mem_readsAll.2 ⟨p, hp, ha⟩)
      · exact absurd ha (AliasSet.not_mem_empty a)

theorem targetPredicate_relates {key : String} (hr : env.HasRelation r) (hk : env.HasColumn key)
    (symmetric : Bool) : (targetPredicate target bridge key symmetric r).Relates env target bridge := by
  simp only [targetPredicate]
  split
  · exact relates_plain_alternatives hk hr.2 hk hr.1 _ _
  · exact relates_plain_equation hk hr.2 _ _

theorem generated_joinPieces {pss : List (List Piece)} (h : ∀ ps ∈ pss, Generated env ps) :
    Generated env (joinPieces " AND ".toList pss) := by
  induction pss with
  | nil => exact .nil
  | cons ps pss ih =>
    cases pss with
    | nil => exact h ps List.mem_cons_self
    | cons qs pss =>
      exact (h ps List.mem_cons_self).append
        (.text (by decide) (ih fun ps hp => h ps (List.mem_cons_of_mem _ hp)))

theorem mem_joinPieces {separator : Text} {pss : List (List Piece)}
    (h : a ∈ Piece.readsAll (joinPieces separator pss)) : ∃ ps ∈ pss, a ∈ Piece.readsAll ps := by
  induction pss with
  | nil => exact absurd h (AliasSet.not_mem_empty a)
  | cons ps pss ih =>
    cases pss with
    | nil => exact ⟨ps, List.mem_cons_self, h⟩
    | cons qs pss =>
      obtain ⟨p, hp, ha⟩ := Piece.mem_readsAll.1 h
      rcases List.mem_append.1 hp with hp | hp
      · exact ⟨ps, List.mem_cons_self, Piece.mem_readsAll.2 ⟨p, hp, ha⟩⟩
      · rcases List.mem_cons.1 hp with rfl | hp
        · exact absurd ha (AliasSet.not_mem_empty a)
        · obtain ⟨xs, hx, ha⟩ := ih (Piece.mem_readsAll.2 ⟨p, hp, ha⟩)
          exact ⟨xs, List.mem_cons_of_mem _ hx, ha⟩

theorem exclusion_relates (h : env.Describes c) : (exclusion target source c).Relates env target source := by
  refine ⟨.plain (generated_joinPieces fun ps hp => ?_), fun a ha => ?_⟩
  · obtain ⟨key, hk, rfl⟩ := List.mem_map.1 hp
    have hkey := hasColumn_of_mem_keyNames h hk
    exact .column hkey (.text (by decide) (.column hkey .nil))
  · obtain ⟨ps, hp, ha⟩ := mem_joinPieces (mem_plain ha)
    obtain ⟨key, -, rfl⟩ := List.mem_map.1 hp
    simpa [Piece.readsAll, Piece.reads] using ha

theorem extraPredicates_relates (h : env.Describes c) (self : Bool) :
    ∀ e ∈ extraPredicates target source self c, e.Relates env target source := by
  intro e he
  rcases List.mem_append.1 he with he | he
  · split at he
    · rw [List.mem_singleton.1 he]
      exact exclusion_relates h
    · cases he
  · obtain ⟨d, hd, rfl⟩ := List.mem_map.1 he
    refine ⟨.plain (.test h (Option.mem_toList.1 hd) .nil), fun a ha => ?_⟩
    have := mem_plain ha
    simp only [Piece.readsAll, Piece.reads, AliasSet.mem_union, AliasSet.mem_ofList,
      List.mem_singleton, AliasSet.not_mem_empty, or_false] at this
    exact .inl this

/-! ## Graphs -/

/-- What holds of a graph while it is built from `n` occurrences. -/
structure JoinGraph.Sound (env : Surroundings) (n : Nat) (g : JoinGraph) : Prop where
  derived : ∀ j ∈ g.nodes, j.Derived env
  nodup : g.aliases.Nodup
  declared : g.nodes.Pairwise fun i j => j.id ∉ i.dependsOn
  id_lt : ∀ j ∈ g.nodes, j.id < n
  below : ∀ j ∈ g.nodes, j.dependsOn.Below n

section
variable {g : JoinGraph} {ns : List JoinNode}

theorem JoinGraph.nodes_add : (g.add ns).nodes = g.nodes ++ ns := rfl

theorem JoinGraph.Sound.mono (h : g.Sound env n) (hn : n ≤ m) : g.Sound env m :=
  ⟨h.derived, h.nodup, h.declared, fun j hj => Nat.lt_of_lt_of_le (h.id_lt j hj) hn,
    fun j hj => (h.below j hj).mono hn⟩

/-- New nodes that are new occurrences, each joined on what is there before it. -/
theorem JoinGraph.Sound.add (h : g.Sound env n) (hn : n ≤ m) (hd : ∀ j ∈ ns, j.Derived env)
    (hnodup : (ns.map (·.id)).Nodup) (hp : ns.Pairwise fun i j => j.id ∉ i.dependsOn)
    (hid : ∀ j ∈ ns, n ≤ j.id ∧ j.id < m) (hb : ∀ j ∈ ns, j.dependsOn.Below m) :
    (g.add ns).Sound env m := by
  refine ⟨fun j hj => ?_, ?_, ?_, fun j hj => ?_, fun j hj => ?_⟩
  · exact (List.mem_append.1 hj).elim (h.derived j) (hd j)
  · rw [JoinGraph.aliases, JoinGraph.nodes_add, List.map_append]
    refine List.nodup_append.2 ⟨h.nodup, hnodup, ?_⟩
    rintro _ ha _ hb rfl
    obtain ⟨i, hi, he⟩ := List.mem_map.1 ha
    obtain ⟨j, hj, rfl⟩ := List.mem_map.1 hb
    exact Nat.not_lt.2 (hid j hj).1 (he ▸ h.id_lt i hi)
  · rw [JoinGraph.nodes_add]
    refine List.pairwise_append.2 ⟨h.declared, hp, fun i hi j hj hmem => ?_⟩
    exact Nat.not_lt.2 (hid j hj).1 (h.below i hi _ hmem)
  · exact (List.mem_append.1 hj).elim (fun hj => Nat.lt_of_lt_of_le (h.id_lt j hj) hn)
      fun hj => (hid j hj).2
  · exact (List.mem_append.1 hj).elim (fun hj => (h.below j hj).mono hn) (hb j)

end

/-! ## Relations -/

/-- An expression that the schema asks for and that reads listed occurrences or a given one. -/
def Expr.ReadsOnly (env : Surroundings) (on : List AliasId) (id : AliasId) (e : Expr) : Prop :=
  e.Generated env ∧ ∀ a ∈ e.reads, a = id ∨ a ∈ on

/-- A node without a condition that is joined on the listed occurrences. -/
structure JoinNode.JoinedOn (env : Surroundings) (on : List AliasId) (j : JoinNode) : Prop where
  described : env.Describes j.component
  parent : ∀ a ∈ j.parent, a ∈ on
  structural : ∀ e ∈ j.structural, e.ReadsOnly env on j.id
  condition : j.condition = none
  extra : ∀ e ∈ j.extra, e.ReadsOnly env on j.id

theorem JoinNode.JoinedOn.derived {j : JoinNode} {on : List AliasId} (h : j.JoinedOn env on) :
    j.Derived env :=
  ⟨h.described, fun e he => (h.structural e he).1, fun e he => (h.extra e he).1⟩

theorem JoinNode.JoinedOn.dependsOn {j : JoinNode} {on : List AliasId} (h : j.JoinedOn env on)
    (ha : a ∈ j.dependsOn) : a ∈ on := by
  obtain ⟨hne, ha⟩ := JoinNode.mem_dependsOn ha
  rcases ha with ha | ⟨e, he, ha⟩ | ⟨c, hc, -⟩ | ⟨e, he, ha⟩
  · exact h.parent a ha
  · exact ((h.structural e he).2 a ha).resolve_left hne
  · rw [h.condition] at hc
    cases hc
  · exact ((h.extra e he).2 a ha).resolve_left hne

theorem Expr.Relates.readsOnly_left {e : Expr} {left right : AliasId} {on : List AliasId}
    (h : e.Relates env left right) (hr : right ∈ on) : e.ReadsOnly env on left :=
  ⟨h.generated, fun a ha => (h.reads a ha).imp_right fun he : a = right => he ▸ hr⟩

theorem Expr.Relates.readsOnly_right {e : Expr} {left right : AliasId} {on : List AliasId}
    (h : e.Relates env left right) (hl : left ∈ on) : e.ReadsOnly env on right :=
  ⟨h.generated, fun a ha => (h.reads a ha).symm.imp_right fun he : a = left => he ▸ hl⟩

theorem Surroundings.describe_eq_ok {clause : Clause} {name : String}
    (h : env.describe clause name = .ok c) : env.Describes c :=
  ⟨name, Except.mapError_eq_ok.1 h⟩

theorem requireKey_eq_ok {clause : Clause} {key : String} (h : requireKey clause c = .ok key) :
    key ∈ c.keyNames := by
  simp only [requireKey] at h
  split at h
  · rename_i x hx
    cases h
    exact List.mem_map_of_mem (List.mem_of_head? hx)
  · cases h

theorem requireKey_hasColumn {clause : Clause} {key : String} (hc : env.Describes c)
    (h : requireKey clause c = .ok key) : env.HasColumn key := by
  obtain ⟨x, hx, rfl⟩ := List.mem_map.1 (requireKey_eq_ok h)
  exact hc.hasColumn (List.mem_filter.1 hx).1

/-- What is known of the components that a relation leads to. -/
def Expansion.Sound (env : Surroundings) : Expansion → Prop
  | direct t => env.Describes t
  | bridged t b sourceKey targetKey =>
    env.Describes t ∧ env.Describes b ∧ env.HasColumn sourceKey ∧ env.HasColumn targetKey

/-- What a relation leads to, and the components and keys that are looked up for it. -/
inductive Expansion.LeadsTo (env : Surroundings) (c : Component) (r : Relation) : Expansion → Prop
  | direct {t : Component} (hkind : r.kind ≠ .manyToMany)
    (ht : env.describe .join r.target = .ok t) : LeadsTo env c r (.direct t)
  | bridged {t b : Component} {name sourceKey targetKey : String} (hkind : r.kind = .manyToMany)
    (ht : env.describe .join r.target = .ok t) (hname : r.bridge = some name)
    (hb : env.describe .join name = .ok b) (hs : requireKey .join c = .ok sourceKey)
    (htk : requireKey .join t = .ok targetKey) :
    LeadsTo env c r (.bridged t b sourceKey targetKey)

theorem Expansion.leadsTo {x : Expansion} (h : Expansion.ofRelation env c r = .ok x) :
    x.LeadsTo env c r := by
  obtain ⟨t, ht, h⟩ := Except.bind_eq_ok.1 h
  cases hk : r.kind with
  | oneToOne | oneToMany =>
    rw [hk] at h
    cases h
    exact .direct (by simp [hk]) ht
  | manyToMany =>
    rw [hk] at h
    cases hb : r.bridge with
    | none => rw [hb] at h; cases h
    | some name =>
      rw [hb] at h
      obtain ⟨b, hbridge, h⟩ := Except.bind_eq_ok.1 h
      obtain ⟨sourceKey, hs, h⟩ := Except.bind_eq_ok.1 h
      obtain ⟨targetKey, htk, h⟩ := Except.bind_eq_ok.1 h
      cases h
      exact .bridged hk ht hb hbridge hs htk

theorem Expansion.ofRelation_sound {x : Expansion} (hc : env.Describes c)
    (h : Expansion.ofRelation env c r = .ok x) : x.Sound env := by
  cases Expansion.leadsTo h with
  | direct _ ht => exact Surroundings.describe_eq_ok ht
  | bridged _ ht _ hb hs htk =>
    have ht := Surroundings.describe_eq_ok ht
    exact ⟨ht, Surroundings.describe_eq_ok hb, requireKey_hasColumn hc hs,
      requireKey_hasColumn ht htk⟩

/-! ## Runs -/

/-- The node of the target of a relation. -/
def targetNode (source : AliasId) (self : Bool) (r : Relation) (kind : JoinKind)
    (userAlias : String) (parent id : AliasId) (t : Component) (structural : Expr) : JoinNode where
  id := id
  userAlias := some userAlias
  component := t
  role := .target
  parent := some parent
  source := some source
  relation := some r
  kind := kind
  indexBy := none
  structural := some structural
  condition := none
  extra := extraPredicates id source self t

/-- The node of the bridge of a relation. -/
def bridgeNode (source : AliasId) (r : Relation) (kind : JoinKind) (id : AliasId) (t : Component)
    (structural : Expr) : JoinNode where
  id := id
  userAlias := none
  component := t
  role := .bridge
  parent := some source
  source := some source
  relation := some r
  kind := kind
  indexBy := none
  structural := some structural
  condition := none
  extra := []

/-- What a relation adds to a graph: a node for its target, which is bound to the alias, and one for
its bridge, if it leads there by way of one. -/
inductive JoinGraph.Expands (env : Surroundings) (g : JoinGraph) (source : AliasId) (c : Component)
    (r : Relation) (kind : JoinKind) (userAlias : String) (b : Bindings) :
    JoinGraph → AliasId → Bindings → Prop
  | direct {t : Component} {id : AliasId} {b' : Bindings}
    (hx : Expansion.ofRelation env c r = .ok (.direct t))
    (ht : (bindComponent userAlias t).Runs b id b') :
    Expands env g source c r kind userAlias b
      (g.add [targetNode source (c.isSelfReferential r) r kind userAlias source id t
        (structuralPredicate source id (c.isSelfReferential r) r)]) id b'
  | bridged {t t' : Component} {sourceKey targetKey : String} {id bridge : AliasId}
    {b₁ b' : Bindings} (hx : Expansion.ofRelation env c r = .ok (.bridged t t' sourceKey targetKey))
    (ht : (bindComponent userAlias t).Runs b id b₁) (ht' : (assignComponent t').Runs b₁ bridge b') :
    Expands env g source c r kind userAlias b
      (g.add [bridgeNode source r kind bridge t'
          (bridgePredicate source bridge sourceKey (c.isSelfReferential r && !r.directed) r),
        targetNode source (c.isSelfReferential r) r kind userAlias bridge id t
          (targetPredicate id bridge targetKey (c.isSelfReferential r && !r.directed) r)]) id b'

theorem runs_expandRelation {g g' : JoinGraph} {kind : JoinKind} {userAlias : String} {id : AliasId}
    {b b' : Bindings} (h : (expandRelation env g source c r kind userAlias).Runs b (g', id) b') :
    g.Expands env source c r kind userAlias b g' id b' := by
  obtain ⟨x, _, h1, h⟩ := runs_bind.1 h
  obtain ⟨hx, rfl⟩ := runs_lift.1 h1
  cases x with
  | direct t =>
    obtain ⟨id', _, h1, h2⟩ := runs_bind.1 h
    obtain ⟨⟨⟩, rfl⟩ := runs_pure.1 h2
    exact .direct hx h1
  | bridged t t' sourceKey targetKey =>
    obtain ⟨id', b₁, h1, h⟩ := runs_bind.1 h
    obtain ⟨bridge, _, h2, h3⟩ := runs_bind.1 h
    obtain ⟨⟨⟩, rfl⟩ := runs_pure.1 h3
    exact .bridged hx h1 h2

/-! ## The nodes of a relation -/

section
variable {j : JoinNode} {key : String} {symmetric self : Bool}

/-- A node that has a parent and a structural predicate. -/
theorem JoinNode.JoinedOn.of_some {on : List AliasId} {p : AliasId} {e : Expr}
    (hc : env.Describes j.component) (hp : j.parent = some p) (hpon : p ∈ on)
    (hs : j.structural = some e) (he : e.ReadsOnly env on j.id) (hn : j.condition = none)
    (hextra : ∀ e ∈ j.extra, e.ReadsOnly env on j.id) : j.JoinedOn env on := by
  refine ⟨hc, fun a ha => ?_, fun x hx => ?_, hn, hextra⟩
  · rw [hp] at ha
    exact Option.some_inj.1 ha ▸ hpon
  · rw [hs] at hx
    exact Option.some_inj.1 hx ▸ he

theorem extraPredicates_readsOnly {on : List AliasId} (hc : env.Describes c) (hs : source ∈ on) :
    ∀ e ∈ extraPredicates target source self c, e.ReadsOnly env on target := fun e he =>
  (extraPredicates_relates hc self e he).readsOnly_left hs

/-- The target of a relation without a bridge. -/
theorem JoinNode.JoinedOn.ofDirect (hr : env.HasRelation r) (hc : env.Describes j.component)
    (hp : j.parent = some source)
    (hs : j.structural = some (structuralPredicate source j.id self r)) (hn : j.condition = none)
    (he : j.extra = extraPredicates j.id source self j.component) : j.JoinedOn env [source] := by
  have hmem : source ∈ [source] := List.mem_singleton_self source
  refine .of_some hc hp hmem hs ?_ hn (he ▸ extraPredicates_readsOnly hc hmem)
  exact (structuralPredicate_relates hr self).readsOnly_right hmem

/-- The bridge of a relation. -/
theorem JoinNode.JoinedOn.ofBridge (hr : env.HasRelation r) (hk : env.HasColumn key)
    (hc : env.Describes j.component) (hp : j.parent = some source)
    (hs : j.structural = some (bridgePredicate source j.id key symmetric r))
    (hn : j.condition = none) (he : j.extra = []) : j.JoinedOn env [source] := by
  have hmem : source ∈ [source] := List.mem_singleton_self source
  refine .of_some hc hp hmem hs ?_ hn (he ▸ List.forall_mem_nil _)
  exact (bridgePredicate_relates hr hk symmetric).readsOnly_right hmem

/-- The target of a relation behind its bridge. -/
theorem JoinNode.JoinedOn.ofTarget (hr : env.HasRelation r) (hk : env.HasColumn key)
    (hc : env.Describes j.component) (hp : j.parent = some bridge)
    (hs : j.structural = some (targetPredicate j.id bridge key symmetric r))
    (hn : j.condition = none) (he : j.extra = extraPredicates j.id source self j.component) :
    j.JoinedOn env [bridge, source] := by
  have hmem : source ∈ [bridge, source] := List.mem_cons_of_mem _ (List.mem_singleton_self source)
  refine .of_some hc hp List.mem_cons_self hs ?_ hn (he ▸ extraPredicates_readsOnly hc hmem)
  exact (targetPredicate_relates hr hk symmetric).readsOnly_left List.mem_cons_self

end

section
variable {b b₁ b₂ : Bindings} {g : JoinGraph} {id id' : AliasId} {j k : JoinNode}

/-- One new occurrence that is joined on occurrences that are there before. -/
theorem JoinGraph.Sound.addOne (on : List AliasId) (hg : g.Sound env b.size) (hadd : b.Adds env id b₁)
    (hj : j.JoinedOn env on) (hid : j.id = id) (hon : ∀ a ∈ on, a < b.size) :
    (g.add ([] ++ [j])).Sound env b₁.size := by
  have hle : b.size ≤ b₁.size := hadd.grows.size_le
  refine hg.add hle ?_ (List.pairwise_singleton _ _) (List.pairwise_singleton _ _) ?_ ?_
  · intro i hi
    rw [List.mem_singleton.1 hi]
    exact hj.derived
  · intro i hi
    rw [List.mem_singleton.1 hi, hid, hadd.id_eq, hadd.size_eq]
    exact ⟨Nat.le_refl _, Nat.lt_succ_self _⟩
  · intro i hi a ha
    rw [List.mem_singleton.1 hi] at ha
    exact Nat.lt_of_lt_of_le (hon a (hj.dependsOn ha)) hle

/-- A bridge and the target behind it; the target has the smaller number. -/
theorem JoinGraph.Sound.addBridge (hg : g.Sound env b.size) (hadd : b.Adds env id b₁)
    (hadd' : b₁.Adds env id' b₂) (hk : k.JoinedOn env [source]) (hkid : k.id = id')
    (hj : j.JoinedOn env [id', source]) (hjid : j.id = id) (hs : source < b.size) :
    (g.add ([k] ++ [j])).Sound env b₂.size := by
  have hle : b.size ≤ b₂.size := Nat.le_trans hadd.grows.size_le hadd'.grows.size_le
  have hid : id = b.size := hadd.id_eq
  have hid' : id' = b.size + 1 := hadd'.id_eq.trans hadd.size_eq
  have hsize : b₂.size = b.size + 2 := by rw [hadd'.size_eq, hadd.size_eq]
  have hmem {P : JoinNode → Prop} (h1 : P k) (h2 : P j) : ∀ i ∈ [k] ++ [j], P i := by
    intro i hi
    simp only [List.cons_append, List.nil_append, List.mem_cons, List.not_mem_nil, or_false] at hi
    rcases hi with rfl | rfl
    · exact h1
    · exact h2
  refine hg.add hle (hmem hk.derived hj.derived) ?_ ?_ (hmem ?_ ?_) (hmem ?_ ?_)
  · simp [hkid, hjid, hid, hid']
  · refine List.pairwise_cons.2 ⟨fun i hi ha => ?_, List.pairwise_singleton _ _⟩
    rw [List.mem_singleton.1 hi, hjid, hid] at ha
    rw [← List.mem_singleton.1 (hk.dependsOn ha)] at hs
    exact Nat.lt_irrefl _ hs
  · rw [hkid, hid', hsize]
    exact ⟨Nat.le_succ _, Nat.lt_succ_self _⟩
  · rw [hjid, hid, hsize]
    exact ⟨Nat.le_refl _, Nat.lt_succ_of_lt (Nat.lt_succ_self _)⟩
  · intro a ha
    rw [List.mem_singleton.1 (hk.dependsOn ha)]
    exact Nat.lt_of_lt_of_le hs hle
  · intro a ha
    have := hj.dependsOn ha
    simp only [List.mem_cons, List.not_mem_nil, or_false] at this
    rcases this with rfl | rfl
    · rw [hid', hsize]
      exact Nat.lt_succ_self _
    · exact Nat.lt_of_lt_of_le hs hle

end

/-- What resolving a step of a join path adds: nodes without conditions, the last of which is the
occurrence of the target. -/
structure JoinGraph.GrowsTo (env : Surroundings) (g : JoinGraph) (b : Bindings) (g' : JoinGraph)
    (id : AliasId) (b' : Bindings) : Prop where
  nodes : ∃ ns j, g' = g.add (ns ++ [j]) ∧ j.id = id ∧ ∀ k ∈ ns ++ [j], k.condition = none
  sound : g'.Sound env b'.size
  grows : b.Grows env b'

theorem expandRelation_spec {b b' : Bindings} {g g' : JoinGraph} {kind : JoinKind}
    {userAlias : String} {id : AliasId} (hb : b.Sound env) (hg : g.Sound env b.size)
    (hs : source < b.size) (hc : env.Describes c) (hr : env.HasRelation r)
    (ha : Tame userAlias.toList) (hnew : b.resolver.lookupLocal? userAlias = none)
    (h : (expandRelation env g source c r kind userAlias).Runs b (g', id) b') :
    g.GrowsTo env b g' id b' ∧ b'.resolver.scope = (userAlias, id) :: b.resolver.scope := by
  cases runs_expandRelation h with
  | direct hx hbind =>
    have hx := Expansion.ofRelation_sound hc hx
    obtain ⟨hadd, hscope⟩ := bindComponent_spec hb hx ha hnew hbind
    refine ⟨⟨⟨[], _, rfl, rfl, ?_⟩, ?_, hadd.grows⟩, hscope⟩
    · intro k hk
      rw [List.mem_singleton.1 hk]
      rfl
    · refine hg.addOne [source] hadd (.ofDirect hr hx rfl rfl rfl rfl) rfl fun a ha => ?_
      exact List.mem_singleton.1 ha ▸ hs
  | bridged hx hbind hassign =>
    obtain ⟨ht, hbr, hsk, htk⟩ := Expansion.ofRelation_sound hc hx
    obtain ⟨hadd, hscope⟩ := bindComponent_spec hb ht ha hnew hbind
    obtain ⟨hadd', hscope'⟩ := assignComponent_spec hadd.grows.sound hbr hassign
    refine ⟨⟨⟨[_], _, rfl, rfl, ?_⟩, ?_, hadd.grows.trans hadd'.grows⟩, hscope'.trans hscope⟩
    · intro k hk
      simp only [List.cons_append, List.nil_append, List.mem_cons, List.not_mem_nil, or_false] at hk
      rcases hk with rfl | rfl <;> rfl
    · exact hg.addBridge hadd hadd' (.ofBridge hr hsk hbr rfl rfl rfl rfl) rfl
        (.ofTarget hr htk ht rfl rfl rfl rfl) rfl hs

end ObjectQuery
