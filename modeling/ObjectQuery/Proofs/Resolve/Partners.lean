import ObjectQuery.Proofs.Resolve.Hops
import ObjectQuery.Proofs.Sql.Formulas

/-! # Partners

The conditions that relations are joined on, read as formulas. A relation of a component to itself
pairs a row with others only: every key column of the two rows has to differ.

* `Expr.Says`: a predicate is read as a formula;
* `says_structural`, `says_bridge`, `says_target`, `says_exclusion`: the predicates of relations;
* `expandRelation_excludes`: what the exclusion adds to a join, whatever else is demanded;
* `expandRelation_pairs`: the pairs of rows that are joined, for a key of one column. -/

namespace ObjectQuery

open Resolve Sql

variable {α : Type} {env : Surroundings} {b b' : Bindings} {g g' : JoinGraph}
  {id source target bridge left right : AliasId} {kind : JoinKind} {userAlias key : String}
  {leftColumn rightColumn leftColumn' rightColumn' : String} {c : Component} {r : Relation}
  {d : Discriminator} {n : JoinNode} {e : Expr} {f : Formula} {names : AliasNames}
  {i j : Valuation α}

/-! ## Predicates -/

/-- The row that an occurrence of a table is at. -/
abbrev Sql.Valuation.at (i : Valuation α) (names : AliasNames) (id : AliasId) : String → α :=
  i.row (names.get id)

/-- The expression is read as the formula when it is written without parentheses. -/
def Expr.Says (names : AliasNames) (e : Expr) (f : Formula) : Prop :=
  Reads .conjunction (Conjunct.tokens ⟨e.terms names, false⟩) f

/-- Two columns have the same value. -/
abbrev equalColumns (names : AliasNames) (left : AliasId) (leftColumn : String) (right : AliasId)
    (rightColumn : String) : Formula :=
  .equal (.column (names.get left) leftColumn) (.column (names.get right) rightColumn)

theorem says_equation : (Expr.plain (equation left leftColumn right rightColumn)).Says names
    (equalColumns names left leftColumn right rightColumn) :=
  .ofUnit (.equal _ _)

theorem says_group : (Expr.plain ([.text ['(']] ++ equation left leftColumn right rightColumn ++
    [.text [')']])).Says names (equalColumns names left leftColumn right rightColumn) :=
  .ofUnit (.group (.ofConjunction says_equation))

theorem says_alternatives : (Expr.plain (alternatives (equation left leftColumn right rightColumn)
    (equation left leftColumn' right rightColumn'))).Says names
      (.or (equalColumns names left leftColumn right rightColumn)
        (equalColumns names left leftColumn' right rightColumn')) :=
  .ofUnit (.group (.or (.ofConjunction says_equation) says_equation))

theorem says_discriminator : (Expr.discriminator id d).Says names
    (.equal (.column (names.get id) d.column) (.literal d.value)) :=
  .ofUnit (.equal _ _)

/-- A predicate with an alternative that counts on a condition. -/
theorem says_ite {p : Prop} [Decidable p] {both one : Expr} {f' : Formula}
    (hboth : both.Says names (.or f f')) (hone : one.Says names f) :
    ∃ e, (if p then both else one).Says names e ∧
      ∀ {α : Type} (i : Valuation α), e.Holds i ↔ f.Holds i ∨ p ∧ f'.Holds i := by
  by_cases hp : p
  · rw [if_pos hp]
    exact ⟨_, hboth, fun i => or_congr_right (and_iff_right hp).symm⟩
  · rw [if_neg hp]
    exact ⟨_, hone, fun i => (or_iff_left fun h => hp h.1).symm⟩

theorem says_structural (names : AliasNames) (source target : AliasId) (r : Relation)
    (self : Bool) : ∃ f,
    (structuralPredicate source target self r).Says names f ∧ ∀ {α : Type} (i : Valuation α),
      f.Holds i ↔ i.at names source r.localColumn = i.at names target r.foreignColumn ∨
        (self && r.kind == .oneToMany && !r.directed) = true ∧
          i.at names source r.foreignColumn = i.at names target r.localColumn :=
  says_ite says_alternatives says_equation

theorem says_bridge (names : AliasNames) (source bridge : AliasId) (key : String) (r : Relation)
    (symmetric : Bool) : ∃ f,
    (bridgePredicate source bridge key symmetric r).Says names f ∧
      ∀ {α : Type} (i : Valuation α),
        f.Holds i ↔ i.at names source key = i.at names bridge r.localColumn ∨
          symmetric = true ∧ i.at names source key = i.at names bridge r.foreignColumn :=
  says_ite says_alternatives says_group

theorem says_target (names : AliasNames) (target bridge : AliasId) (key : String) (r : Relation)
    (symmetric : Bool) : ∃ f,
    (targetPredicate target bridge key symmetric r).Says names f ∧
      ∀ {α : Type} (i : Valuation α),
        f.Holds i ↔ i.at names target key = i.at names bridge r.foreignColumn ∨
          symmetric = true ∧ i.at names target key = i.at names bridge r.localColumn :=
  says_ite says_alternatives says_equation

theorem joinPieces_map_cons {separator : Text} {pieces : String → List Piece} {x y : String}
    {xs : List String} : joinPieces separator ((x :: y :: xs).map pieces) =
      pieces x ++ .text separator :: joinPieces separator ((y :: xs).map pieces) :=
  rfl

/-- The exclusion compares the columns of the key one by one, and all of them have to differ. -/
theorem says_exclusion (names : AliasNames) (target source : AliasId)
    (hkeys : c.keyNames ≠ []) : ∃ f,
    (exclusion target source c).Says names f ∧ ∀ {α : Type} (i : Valuation α),
      f.Holds i ↔ ∀ key ∈ c.keyNames, i.at names target key ≠ i.at names source key := by
  rw [exclusion]
  generalize c.keyNames = keys at hkeys ⊢
  induction keys with
  | nil => exact absurd rfl hkeys
  | cons key keys ih =>
    cases keys with
    | nil =>
      refine ⟨_, .ofUnit (.unequal _ _), fun i => ?_⟩
      rw [List.forall_mem_singleton]
      rfl
    | cons key' keys =>
      obtain ⟨f, hf, hiff⟩ := ih (List.cons_ne_nil _ _)
      obtain ⟨e, he, hconj⟩ := Reads.conj (.ofUnit (.unequal (.column (names.get target) key)
        (.column (names.get source) key))) hf
      -- the text between two comparisons is followed by a column, and so stays a piece of its own
      have hcolumn : ∃ rest, joinPieces " AND ".toList ((key' :: keys).map fun key =>
          [.column target key, .text " != ".toList, .column source key]) =
            .column target key' :: rest := by
        cases keys <;> exact ⟨_, rfl⟩
      obtain ⟨rest, hrest⟩ := hcolumn
      refine ⟨e, ?_, fun i => ?_⟩
      · rw [hrest] at he
        rw [joinPieces_map_cons, hrest]
        exact he
      · rw [hconj, List.forall_mem_cons, hiff]
        rfl

/-! ## Joins -/

/-- The conjunct that a predicate of the schema is. -/
abbrev Expr.conjunct (names : AliasNames) (e : Expr) : Conjunct := ⟨e.terms names, false⟩

/-- The node with what the relation and the query demand, and nothing else. -/
def JoinNode.bare (n : JoinNode) : JoinNode := { n with extra := [] }

/-- The node without the exclusion of the row that it is joined to. -/
def JoinNode.inclusive (n : JoinNode) : JoinNode :=
  { n with extra := n.component.inheritance.toList.map (Expr.discriminator n.id) }

theorem on_eq : (n.join names).on = (n.bare.join names).on ++ n.extra.map (·.conjunct names) := by
  obtain ⟨use, structural, condition, extra⟩ := n
  simp [join_on, JoinNode.predicates, JoinNode.bare]

theorem on_bare (hs : n.structural = some e) (hc : n.condition = none) :
    (n.bare.join names).on = [e.conjunct names] := by
  obtain ⟨use, structural, condition, extra⟩ := n
  subst hs hc
  rfl

theorem legible_bare (h : ∀ e ∈ n.structural, ∃ f, e.Says names f) :
    Legible (n.bare.join names).on := by
  obtain ⟨use, structural, condition, extra⟩ := n
  have hstructural : Legible ((structural.toList.map fun e => (e, false)).map
      fun p => (⟨p.1.terms names, p.2⟩ : Conjunct)) := by
    cases structural with
    | none => exact legible_nil
    | some e =>
      obtain ⟨f, hf⟩ := h e rfl
      exact legible_singleton hf
  rw [join_on]
  obtain - | ⟨kind, e⟩ := condition
  · simpa only [JoinNode.predicates, JoinNode.bare, List.map_nil, List.append_nil] using hstructural
  · cases kind with
    | replacing => exact legible_enclosed _
    | extending =>
      have hboth := hstructural.append (legible_enclosed (e.terms names))
      simpa only [JoinNode.predicates, JoinNode.bare, List.map_nil, List.append_nil, List.map_cons,
        List.map_append] using hboth

/-- The row is one of the component, as far as its discriminator tells. -/
def Component.Owns (c : Component) (i : Valuation α) (row : String → α) : Prop :=
  ∀ d ∈ c.inheritance, row d.column = i.literal d.value

/-- The tests for the rows of a component. -/
def testConjuncts (names : AliasNames) (id : AliasId) (c : Component) : List Conjunct :=
  (c.inheritance.toList.map (Expr.discriminator id)).map (·.conjunct names)

theorem legible_tests : Legible (testConjuncts names id c) := by
  rw [testConjuncts]
  cases c.inheritance with
  | none => exact legible_nil
  | some d => exact legible_singleton says_discriminator

theorem holds_tests : Holds i (testConjuncts names id c) ↔ c.Owns i (i.at names id) := by
  rw [testConjuncts, Component.Owns]
  cases c.inheritance with
  | none => exact iff_of_true holds_nil nofun
  | some d =>
    simp only [Option.mem_some_iff, forall_eq']
    exact holds_singleton says_discriminator

theorem on_inclusive :
    (n.inclusive.join names).on = (n.bare.join names).on ++ testConjuncts names n.id n.component :=
  on_eq

/-- The conditions of a node that excludes the row at `source`: those of the node without the
exclusion, and the exclusion among them. -/
theorem holds_excluding (names : AliasNames) (n : JoinNode)
    (hs : ∀ e ∈ n.structural, ∃ f, e.Says names f)
    (hextra : n.extra = extraPredicates n.id source true n.component)
    (hkeys : n.component.keyNames ≠ []) :
    (∃! f, Reads .disjunction (conditionTokens (n.join names).on) f) ∧
      ∀ {α : Type} (i : Valuation α), Holds i (n.join names).on ↔
        Holds i (n.inclusive.join names).on ∧
          ∀ key ∈ n.component.keyNames, i.at names n.id key ≠ i.at names source key := by
  obtain ⟨f, hf, hiff⟩ := says_exclusion names n.id source hkeys
  have hbare := legible_bare hs
  have hexclusion : Legible [(exclusion n.id source n.component).conjunct names] :=
    legible_singleton hf
  have hon : (n.join names).on = (n.bare.join names).on ++
      ([(exclusion n.id source n.component).conjunct names] ++
        testConjuncts names n.id n.component) := by
    rw [on_eq, hextra]
    rfl
  rw [hon, on_inclusive]
  refine ⟨(hbare.append (hexclusion.append legible_tests)).existsUnique
    (List.append_ne_nil_of_right_ne_nil _ (List.cons_ne_nil _ _)), fun i => ?_⟩
  rw [holds_append hbare (hexclusion.append legible_tests), holds_append hexclusion legible_tests,
    holds_append hbare legible_tests, holds_singleton hf, hiff]
  exact ⟨fun ⟨h, he, ht⟩ => ⟨⟨h, ht⟩, he⟩, fun ⟨⟨h, ht⟩, he⟩ => ⟨h, he, ht⟩⟩

/-! ## Relations of a component to itself -/

/-- The node is an occurrence of a component, joined on one predicate and what is demanded in any
case. -/
structure JoinNode.Joins (e : Expr) (extra : List Expr) (id : AliasId) (c : Component)
    (n : JoinNode) : Prop where
  id : n.id = id
  component : n.component = c
  structural : n.structural = some e
  condition : n.condition = none
  extra : n.extra = extra

/-- The nodes that a relation adds, the target last. -/
inductive Expanded (env : Surroundings) (source : AliasId) (c : Component) (r : Relation)
    (id : AliasId) : List JoinNode → Prop
  | direct {t : Component} {n : JoinNode} (hkind : r.kind ≠ .manyToMany)
    (ht : env.describe .join r.target = .ok t)
    (hn : n.Joins (structuralPredicate source id (c.isSelfReferential r) r)
      (extraPredicates id source (c.isSelfReferential r) t) id t) : Expanded env source c r id [n]
  | bridged {t t' : Component} {k n : JoinNode} {bridge : AliasId} {sourceKey targetKey : String}
    (hkind : r.kind = .manyToMany) (ht : env.describe .join r.target = .ok t)
    (hs : requireKey .join c = .ok sourceKey) (htk : requireKey .join t = .ok targetKey)
    (hk : k.Joins (bridgePredicate source bridge sourceKey (c.isSelfReferential r && !r.directed) r)
      [] bridge t')
    (hn : n.Joins (targetPredicate id bridge targetKey (c.isSelfReferential r && !r.directed) r)
      (extraPredicates id source (c.isSelfReferential r) t) id t) : Expanded env source c r id [k, n]

theorem expandRelation_expanded
    (h : (expandRelation env g source c r kind userAlias).Runs b (g', id) b') :
    ∃ ns, g' = g.add ns ∧ Expanded env source c r id ns := by
  cases runs_expandRelation h with
  | direct hx =>
    obtain ⟨hkind, ht⟩ := Expansion.leadsTo hx
    exact ⟨_, rfl, .direct hkind ht ⟨rfl, rfl, rfl, rfl, rfl⟩⟩
  | bridged hx =>
    obtain ⟨-⟩ | ⟨hkind, ht, -, -, hs, htk⟩ := Expansion.leadsTo hx
    exact ⟨_, rfl, .bridged hkind ht hs htk ⟨rfl, rfl, rfl, rfl, rfl⟩ ⟨rfl, rfl, rfl, rfl, rfl⟩⟩

/-- The target of a relation joins on a predicate, and excludes the source row where the relation
leads back. -/
theorem Expanded.exists_target {ns : List JoinNode} (h : Expanded env source c r id ns) :
    ∃ pre n t e, ns = pre ++ [n] ∧ env.describe .join r.target = .ok t ∧
      n.Joins e (extraPredicates id source (c.isSelfReferential r) t) id t ∧
      ∀ names, ∃ f, e.Says names f := by
  cases h with
  | direct _ ht hn =>
    exact ⟨[], _, _, _, rfl, ht, hn, fun names => (says_structural ..).imp fun _ => And.left⟩
  | bridged _ ht _ _ _ hn =>
    exact ⟨[_], _, _, _, rfl, ht, hn, fun names => (says_target ..).imp fun _ => And.left⟩

/-- The join to a component on a predicate, with nothing that the query demands. -/
theorem JoinNode.Joins.holds_target (h : n.Joins e (extraPredicates id source true c) id c)
    (hf : e.Says names f) (hkeys : c.keyNames ≠ []) :
    (∃! f, Reads .disjunction (conditionTokens (n.join names).on) f) ∧
      ∀ {α : Type} (i : Valuation α),
        (Holds i (n.inclusive.join names).on ↔ f.Holds i ∧ c.Owns i (i.at names id)) ∧
        (Holds i (n.join names).on ↔ f.Holds i ∧
          (∀ key ∈ c.keyNames, i.at names id key ≠ i.at names source key) ∧
            c.Owns i (i.at names id)) := by
  obtain ⟨rfl, rfl, hs, hc, hextra⟩ := h
  have hsays : ∀ e' ∈ n.structural, ∃ f, e'.Says names f := by
    simpa [hs] using ⟨f, hf⟩
  obtain ⟨hread, hholds⟩ := holds_excluding names n hsays hextra hkeys
  have hinclusive {α : Type} (i : Valuation α) : Holds i (n.inclusive.join names).on ↔
      f.Holds i ∧ n.component.Owns i (i.at names n.id) := by
    rw [on_inclusive, on_bare hs hc, holds_append (legible_singleton hf) legible_tests,
      holds_singleton hf, holds_tests]
  refine ⟨hread, fun i => ⟨hinclusive i, ?_⟩⟩
  rw [hholds, hinclusive, and_assoc, and_comm (a := n.component.Owns i _)]

/-- Bridges demand nothing but their predicate. -/
theorem JoinNode.Joins.holds_bridge (h : n.Joins e [] id c) (hf : e.Says names f) :
    (∃! f, Reads .disjunction (conditionTokens (n.join names).on) f) ∧
      ∀ {α : Type} (i : Valuation α), Holds i (n.join names).on ↔ f.Holds i := by
  have hon : (n.join names).on = [e.conjunct names] := by
    rw [on_eq, on_bare h.structural h.condition, h.extra]
    rfl
  rw [hon]
  exact ⟨(legible_singleton hf).existsUnique (List.cons_ne_nil _ _), fun i => holds_singleton hf⟩

namespace Sample

/-- From a part to those of which it is the base. -/
def variants : Relation :=
  ⟨"variants", .oneToMany, "Part", "code", "base", none, none, none, false, true⟩

/-- Parts have a code from their maker, so that only the two together tell them apart. -/
def part : Component where
  name := "Part"
  table := "parts"
  columns := [⟨"maker", none, "integer", true⟩, ⟨"code", none, "integer", true⟩,
    ⟨"base", none, "integer", false⟩]
  relations := [variants]
  inheritance := none
  orderBy := none

def friends : Relation :=
  ⟨"friends", .manyToMany, "Person", "person_id", "friend_id", some "Friendship", none, none, false,
    false⟩

def person : Component where
  name := "Person"
  table := "persons"
  columns := [⟨"id", none, "integer", true⟩]
  relations := [friends]
  inheritance := none
  orderBy := none

def friendship : Component where
  name := "Friendship"
  table := "friendships"
  columns := [⟨"id", none, "integer", true⟩, ⟨"person_id", none, "integer", false⟩,
    ⟨"friend_id", none, "integer", false⟩]
  relations := []
  inheritance := none
  orderBy := none

/-- Parts, persons and their friendships. -/
def village : Surroundings := ⟨.ofComponents [part, person, friendship], {}⟩

/-- What is bound when a query starts from the component. -/
def started (c : Component) : Bindings where
  resolver := (({} : Resolver).bind "r" c.table).2
  components := [(0, c)]

/-- The graph of a query that starts from the component. -/
def root (c : Component) : JoinGraph := ⟨.ofRoot 0 "r" c none, []⟩

/-- The variants of a part, under an alias of their own. -/
theorem exists_variants : ∃ g b, (expandRelation village (root part) 0 part variants .left "v").Runs
    (started part) (g, 1) b :=
  ⟨_, _, rfl⟩

end Sample

/-- The node with a condition of the query. -/
def JoinNode.under (n : JoinNode) (condition : Option JoinCondition) : JoinNode :=
  { n with condition := condition }

/-- The join to the target of a relation of a component to itself, with any condition of the query,
is read in one way as it is written. It finds the rows that it would find without the exclusion,
except those that agree with the source row in some column of the key. So the keys of the rows that
it finds differ from that of the source row, and if the key is a single column no other rows are left
out. -/
theorem expandRelation_excludes (hself : c.isSelfReferential r = true)
    (h : (expandRelation env g source c r kind userAlias).Runs b (g', id) b') :
    ∃ ns n, g' = g.add (ns ++ [n]) ∧ n.id = id ∧ env.describe .join r.target = .ok n.component ∧
      ∀ keys, n.component.keyNames = keys → keys ≠ [] →
      ∀ (condition : Option JoinCondition) (names : AliasNames) (on inclusive : List Conjunct),
        ((n.under condition).join names).on = on →
        ((n.under condition).inclusive.join names).on = inclusive →
        (∀ style : Style, (conditionTokens on).flatMap (Token.text style) = style.conditionText on) ∧
        (∃! f, Reads .disjunction (conditionTokens on) f) ∧
        ∀ {α : Type} (i : Valuation α),
          (Holds i on ↔
            Holds i inclusive ∧ ∀ key ∈ keys, i.at names id key ≠ i.at names source key) ∧
          (Holds i on → keys.map (i.at names id) ≠ keys.map (i.at names source)) ∧
          (keys.length = 1 → (Holds i on ↔
            Holds i inclusive ∧ keys.map (i.at names id) ≠ keys.map (i.at names source))) := by
  obtain ⟨_, rfl, hx⟩ := expandRelation_expanded h
  obtain ⟨pre, n, t, e, rfl, ht, ⟨rfl, rfl, hs, -, hextra⟩, hsays⟩ := hx.exists_target
  rw [hself] at hextra
  refine ⟨pre, n, rfl, rfl, ht, ?_⟩
  rintro keys rfl hkeys condition names on inclusive rfl rfl
  have hpredicate : ∀ e' ∈ n.structural, ∃ f, e'.Says names f := by
    simpa [hs] using hsays names
  obtain ⟨hread, hholds⟩ := holds_excluding names (n.under condition) hpredicate hextra hkeys
  refine ⟨fun _ => text_conditionTokens _, hread,
    fun i => ⟨hholds i, fun hi heq => ?_, fun hone => ?_⟩⟩
  · obtain ⟨key, hkey⟩ := List.exists_mem_of_ne_nil _ hkeys
    exact ((hholds i).1 hi).2 key hkey (List.map_inj_left.1 heq key hkey)
  · obtain ⟨key, hkey⟩ := List.length_eq_one_iff.1 hone
    rw [hholds i]
    show _ ∧ (∀ key ∈ n.component.keyNames, i.at names n.id key ≠ i.at names source key) ↔ _
    rw [hkey, List.forall_mem_singleton]
    simp

/-- A part is joined to variants of another maker only, under another code. -/
theorem expandRelation_excludes_variants : ∃ g b n,
    (expandRelation Sample.village (Sample.root Sample.part) 0 Sample.part Sample.variants .left
      "v").Runs (Sample.started Sample.part) (g, 1) b ∧ n ∈ g.joins ∧
    ∀ i : Valuation Nat, Holds i ((n.under none).join ["p", "p2"]).on →
      i.row "p2" "maker" ≠ i.row "p" "maker" ∧ i.row "p2" "code" ≠ i.row "p" "code" := by
  obtain ⟨g, b, h⟩ := Sample.exists_variants
  obtain ⟨ns, n, rfl, -, ht, hn⟩ := expandRelation_excludes (by decide) h
  have hpart : Sample.part = n.component := Except.ok.inj ht
  obtain ⟨-, -, hholds⟩ := hn ["maker", "code"] (by rw [← hpart]; decide) (by decide) none
    ["p", "p2"] _ _ rfl rfl
  refine ⟨_, b, n, h, by simp [JoinGraph.add], fun i hi => ?_⟩
  have hkeys := ((hholds i).1.1 hi).2
  exact ⟨hkeys "maker" (by simp), hkeys "code" (by simp)⟩

/-- A part and a variant of it by the same maker, under another code. -/
def Sample.sameMaker : Valuation Nat where
  row name column := if column = "code" ∧ name = "p2" then 2 else 1
  literal _ := 0
  given _ := True

/-- The variant is not joined to the part, although the relation holds and their keys differ: the
exclusion compares the makers as well. -/
theorem exclusion_same_maker : ∃ g b n,
    (expandRelation Sample.village (Sample.root Sample.part) 0 Sample.part Sample.variants .left
      "v").Runs (Sample.started Sample.part) (g, 1) b ∧ n ∈ g.joins ∧
    Holds Sample.sameMaker (n.inclusive.join ["p", "p2"]).on ∧
    Sample.part.keyNames.map (Sample.sameMaker.row "p2") ≠
      Sample.part.keyNames.map (Sample.sameMaker.row "p") ∧
    ¬Holds Sample.sameMaker [(exclusion 1 0 Sample.part).conjunct ["p", "p2"]] ∧
    ¬Holds Sample.sameMaker (n.join ["p", "p2"]).on := by
  obtain ⟨g, b, h⟩ := Sample.exists_variants
  obtain ⟨_, rfl, hx⟩ := expandRelation_expanded h
  have hself : Sample.part.isSelfReferential Sample.variants = true := by decide
  cases hx with
  | bridged hkind => cases hkind
  | @direct t n _ ht hn =>
    cases (show Sample.part = t from Except.ok.inj ht)
    rw [hself] at hn
    obtain ⟨f, hf, hiff⟩ := says_structural ["p", "p2"] 0 1 Sample.variants true
    obtain ⟨f', hf', hiff'⟩ := says_exclusion (c := Sample.part) ["p", "p2"] 1 0 (by decide)
    obtain ⟨-, hholds⟩ := hn.holds_target hf (by decide)
    obtain ⟨hinclusive, hon⟩ := hholds Sample.sameMaker
    have hmaker : ¬∀ key ∈ Sample.part.keyNames,
        Sample.sameMaker.row "p2" key ≠ Sample.sameMaker.row "p" key := by decide
    refine ⟨_, b, n, h, List.mem_singleton_self n, hinclusive.2 ⟨?_, nofun⟩, by decide,
      fun hi => ?_, fun hi => hmaker (hon.1 hi).2.1⟩
    · rw [hiff]
      exact .inl (by decide)
    · rw [holds_singleton hf', hiff'] at hi
      exact hmaker hi

/-- What makes the rows `s` and `t` partners through a relation of a component to itself that has
the key column `key`; behind a bridge, by the row `w` of the bridge. -/
def Relation.Pairs (r : Relation) (key : String) (s w t : String → α) : Prop :=
  s key ≠ t key ∧
    match r.kind with
    | .oneToOne => s r.localColumn = t r.foreignColumn
    | .oneToMany => s r.localColumn = t r.foreignColumn ∨
        r.directed = false ∧ s r.foreignColumn = t r.localColumn
    | .manyToMany => w r.localColumn = s key ∧ w r.foreignColumn = t key ∨
        r.directed = false ∧ w r.localColumn = t key ∧ w r.foreignColumn = s key

theorem Relation.Pairs.symm {s w t : String → α} (h : r.Pairs key s w t)
    (hkind : r.kind ≠ .oneToOne) (hdirected : r.directed = false) : r.Pairs key t w s := by
  obtain ⟨hne, h⟩ := h
  refine ⟨hne.symm, ?_⟩
  cases hk : r.kind with
  | oneToOne => exact absurd hk hkind
  | oneToMany =>
    simp only [hk, hdirected, true_and] at h ⊢
    exact h.symm.imp Eq.symm Eq.symm
  | manyToMany =>
    simp only [hk, hdirected, true_and] at h ⊢
    exact h.symm

theorem pairs_direct {s w t : String → α} (hkind : r.kind ≠ .manyToMany) :
    r.Pairs key s w t ↔ (s r.localColumn = t r.foreignColumn ∨
      (true && r.kind == .oneToMany && !r.directed) = true ∧
        s r.foreignColumn = t r.localColumn) ∧ s key ≠ t key := by
  rw [Relation.Pairs, and_comm]
  refine and_congr_left fun _ => ?_
  cases hk : r.kind with
  | oneToOne => simp
  | oneToMany => simp
  | manyToMany => exact absurd hk hkind

/-- The bridge row belongs to the source row by one of its columns and to the target row by one; it
cannot be the same column, as the two rows differ. -/
theorem pairs_bridged {s w t : String → α} (hkind : r.kind = .manyToMany) :
    r.Pairs key s w t ↔
      (s key = w r.localColumn ∨ (true && !r.directed) = true ∧ s key = w r.foreignColumn) ∧
        (t key = w r.foreignColumn ∨ (true && !r.directed) = true ∧ t key = w r.localColumn) ∧
          s key ≠ t key := by
  simp only [Relation.Pairs, hkind, Bool.true_and, Bool.not_eq_true']
  constructor
  · rintro ⟨hne, ⟨hl, hf⟩ | ⟨hd, hl, hf⟩⟩
    · exact ⟨.inl hl.symm, .inl hf.symm, hne⟩
    · exact ⟨.inr ⟨hd, hf.symm⟩, .inr ⟨hd, hl.symm⟩, hne⟩
  · rintro ⟨hl | ⟨hd, hf⟩, hf' | ⟨hd', hl'⟩, hne⟩
    · exact ⟨hne, .inl ⟨hl.symm, hf'.symm⟩⟩
    · exact absurd (hl.trans hl'.symm) hne
    · exact absurd (hf.trans hf'.symm) hne
    · exact ⟨hne, .inr ⟨hd, hl'.symm, hf.symm⟩⟩

theorem requireKey_eq {clause : Clause} {key' : String} (hkey : c.keyNames = [key])
    (h : requireKey clause c = .ok key') : key' = key :=
  List.mem_singleton.1 (hkey ▸ requireKey_eq_ok h)

/-- The joins that a relation of a component to itself adds: they are read in one way, and joined are
the partners that are rows of the component. -/
theorem expandRelation_joins (hself : c.isSelfReferential r = true)
    (hc : env.describe .join r.target = .ok c) (hkey : c.keyNames = [key])
    (h : (expandRelation env g source c r kind userAlias).Runs b (g', id) b') :
    ∃ ns bridge, g' = g.add ns ∧
      ns.map (·.id) = (if r.kind = .manyToMany then [bridge, id] else [id]) ∧
      ∀ names : AliasNames,
        (∀ n ∈ ns, ∃! f, Reads .disjunction (conditionTokens (n.join names).on) f) ∧
        ∀ {α : Type} (i : Valuation α), (∀ n ∈ ns, Holds i (n.join names).on) ↔
          r.Pairs key (i.at names source) (i.at names bridge) (i.at names id) ∧
            c.Owns i (i.at names id) := by
  obtain ⟨ns, rfl, hx⟩ := expandRelation_expanded h
  cases hx with
  | direct hkind ht hn =>
    cases hc.symm.trans ht
    rw [hself] at hn
    refine ⟨_, id, rfl, ?_, fun names => ?_⟩
    · rw [if_neg hkind, List.map_singleton, hn.id]
    obtain ⟨f, hf, hiff⟩ := says_structural names source id r true
    obtain ⟨hread, hholds⟩ := hn.holds_target hf (hkey ▸ List.cons_ne_nil _ _)
    refine ⟨List.forall_mem_singleton.2 hread, fun i => ?_⟩
    rw [List.forall_mem_singleton, (hholds i).2, hiff, hkey, List.forall_mem_singleton,
      pairs_direct hkind, and_assoc, ne_comm]
  | @bridged _ _ _ _ bridge _ _ hkind ht hs htk hk hn =>
    cases hc.symm.trans ht
    cases requireKey_eq hkey hs
    cases requireKey_eq hkey htk
    rw [hself] at hk hn
    refine ⟨_, bridge, rfl, ?_, fun names => ?_⟩
    · rw [if_pos hkind, List.map_cons, List.map_singleton, hk.id, hn.id]
    obtain ⟨f, hf, hiff⟩ := says_bridge names source bridge key r (true && !r.directed)
    obtain ⟨f', hf', hiff'⟩ := says_target names id bridge key r (true && !r.directed)
    obtain ⟨hread, hholds⟩ := hk.holds_bridge hf
    obtain ⟨hread', hholds'⟩ := hn.holds_target hf' (hkey ▸ List.cons_ne_nil _ _)
    refine ⟨List.forall_mem_cons.2 ⟨hread, List.forall_mem_singleton.2 hread'⟩, fun i => ?_⟩
    rw [List.forall_mem_cons, List.forall_mem_singleton, hholds, hiff, (hholds' i).2, hiff', hkey,
      List.forall_mem_singleton, pairs_bridged hkind, and_assoc, and_assoc, ne_comm]

/-- The joins of a relation of a component to itself pair each row with its partners. Undirected
relations that lead to several partners are symmetric, and no row is its own partner. -/
theorem expandRelation_pairs (hself : c.isSelfReferential r = true)
    (hc : env.describe .join r.target = .ok c) (hkey : c.keyNames = [key])
    (h : (expandRelation env g source c r kind userAlias).Runs b (g', id) b') :
    ∃ ns bridge, g' = g.add ns ∧
      ns.map (·.id) = (if r.kind = .manyToMany then [bridge, id] else [id]) ∧
      ∀ names : AliasNames,
        (∀ n ∈ ns, ∃! f, Reads .disjunction (conditionTokens (n.join names).on) f) ∧
        (∀ {α : Type} (i : Valuation α), (∀ n ∈ ns, Holds i (n.join names).on) ↔
          r.Pairs key (i.at names source) (i.at names bridge) (i.at names id) ∧
            c.Owns i (i.at names id)) ∧
        (∀ {α : Type} (i j : Valuation α), r.kind ≠ .oneToOne → r.directed = false →
          j.literal = i.literal → j.at names bridge = i.at names bridge →
          j.at names source = i.at names id → j.at names id = i.at names source →
          c.Owns i (i.at names source) → (∀ n ∈ ns, Holds i (n.join names).on) →
            ∀ n ∈ ns, Holds j (n.join names).on) ∧
        ∀ {α : Type} (i : Valuation α), i.at names source = i.at names id →
          ¬∀ n ∈ ns, Holds i (n.join names).on := by
  obtain ⟨ns, bridge, hg, hids, hns⟩ := expandRelation_joins hself hc hkey h
  refine ⟨ns, bridge, hg, hids, fun names => ?_⟩
  obtain ⟨hread, hpairs⟩ := hns names
  refine ⟨hread, hpairs, ?_, fun i heq hi => ?_⟩
  · intro α i j hkind hdirected hliteral hbridge hsource htarget howns hi
    obtain ⟨hp, -⟩ := (hpairs i).1 hi
    refine (hpairs j).2 ⟨?_, ?_⟩
    · rw [hbridge, hsource, htarget]
      exact hp.symm hkind hdirected
    · rw [htarget, Component.Owns, hliteral]
      exact howns
  · obtain ⟨hp, -⟩ := (hpairs i).1 hi
    exact hp.1 (congrFun heq key)

/-- Friends are found through friendships that either of them declared. -/
theorem expandRelation_pairs_friends : ∃ g b ns bridge,
    (expandRelation Sample.village (Sample.root Sample.person) 0 Sample.person Sample.friends .left
      "f").Runs (Sample.started Sample.person) (g, 1) b ∧
    g = (Sample.root Sample.person).add ns ∧ ns.map (·.id) = [bridge, 1] ∧
    ∀ (names : AliasNames) (i : Valuation Nat), (∀ n ∈ ns, Holds i (n.join names).on) ↔
      Sample.friends.Pairs "id" (i.at names 0) (i.at names bridge) (i.at names 1) := by
  obtain ⟨g, b, h⟩ : ∃ g b, (expandRelation Sample.village (Sample.root Sample.person) 0
      Sample.person Sample.friends .left "f").Runs (Sample.started Sample.person) (g, 1) b :=
    ⟨_, _, rfl⟩
  have hkey : Sample.person.keyNames = ["id"] := by decide
  obtain ⟨ns, bridge, hg, hids, hns⟩ := expandRelation_pairs (by decide) rfl hkey h
  refine ⟨g, b, ns, bridge, h, hg, hids, fun names i => ?_⟩
  obtain ⟨-, hpairs, -⟩ := hns names
  exact (hpairs i).trans (and_iff_left nofun)

end ObjectQuery
