import ObjectQuery.Proofs.Sql.Lowering
import ObjectQuery.Proofs.Sql.Rendering
import ObjectQuery.Sql.Count
import ObjectQuery.Sql.Limited

/-! # Statements of a plan

A property of parts that the expressions of a plan have (`Rendering`) holds of every statement that
is made from the plan: of the statement of the plan itself, with its limit inside or in a subquery,
and of the statement that counts.

* `Rendering.selectStatement`, `Rendering.countStatement`. -/

namespace ObjectQuery

open Sql

/-- The expression is sound, and its placeholders are among those with the given ordinals. -/
structure Expr.Within (env : Surroundings) (Q : Subquery → Prop) (ks : List Nat) (e : Expr) :
    Prop where
  sound : e.Sound env Q
  mem : ∀ n ∈ e.ordinals, n ∈ ks

/-- A property of written parts that holds of the names and expressions of plans. -/
structure Rendering (env : Surroundings) (style : Style) (Q : Subquery → Prop) (ks : List Nat)
    (N : String → Prop) (P : List Sql.Part → Prop) : Prop extends Compositional style N P where
  name {name : String} : IsName name → N name
  append_name {a b : String} : N a → N b → N (a ++ b)
  physical {name : String} : env.HasColumn name → N name
  table_name {c : Component} : env.Describes c → N c.table
  expr {names : AliasNames} {e : Expr} : (∀ name ∈ names, N name) → e.Within env Q ks →
    P (Term.partsAll style (e.terms names))
  test {c : Component} {d : Discriminator} {qualifier : String} : env.Describes c →
    c.inheritance = some d → N qualifier →
    P (Term.parts style (.equals qualifier d.column d.value))

/-- What is known of the joins and clauses that a statement is made of. -/
structure QueryWithin (env : Surroundings) (Q : Subquery → Prop) (ks : List Nat) (g : JoinGraph)
    (c : ClauseSet) : Prop where
  clauses : c.Each (·.Within env Q ks)
  joins : ∀ n ∈ g.nodes, ∀ e ∈ n.exprs, e.Within env Q ks
  derived : ∀ n ∈ g.nodes, n.Derived env
  fields : ∀ f ∈ c.select.filterMap (·.field?), env.HasColumn f.column
  directions : ∀ t ∈ c.orderBy, ∀ d ∈ t.direction, Tame d.toList

section
variable {env : Surroundings} {style : Style} {Q : Subquery → Prop} {ks : List Nat}
  {N : String → Prop} {P : List Sql.Part → Prop} {names : AliasNames} {g : JoinGraph} {c : ClauseSet}
  {p : QueryPlan}

/-! ## Names -/

theorem AliasNames.get_mem_or (names : AliasNames) (id : AliasId) :
    names.get id ∈ names ∨ names.get id = "" := by
  rw [AliasNames.get, List.getD_eq_getElem?_getD]
  cases h : names[id]? with
  | none => exact .inr rfl
  | some name => exact .inl (List.mem_of_getElem? h)

theorem Rendering.get (h : Rendering env style Q ks N P) (hn : ∀ name ∈ names, N name)
    (id : AliasId) : N (names.get id) := by
  rcases names.get_mem_or id with hmem | hempty
  · exact hn _ hmem
  · exact hempty ▸ h.name nofun

theorem IsName.append {a b : String} (ha : IsName a) (hb : IsName b) : IsName (a ++ b) := by
  intro c hc
  rw [String.toList_append] at hc
  exact (List.mem_append.1 hc).elim (ha c) (hb c)

theorem isName_toString (n : Nat) : IsName (toString n) := fun _ hc => isNameChar_of_mem_toString hc

theorem Rendering.number (h : Rendering env style Q ks N P) (n : Nat) : N (toString n) :=
  h.name (isName_toString n)

theorem isName_underscores : IsName "__" := by decide

theorem Rendering.joined (h : Rendering env style Q ks N P) {a b : String} (ha : N a) (hb : N b) :
    N (a ++ "__" ++ b) :=
  h.append_name (h.append_name ha (h.name isName_underscores)) hb

theorem Rendering.expressionOutput (h : Rendering env style Q ks N P)
    (hn : ∀ name ∈ names, N name) (owner : AliasId) (ordinal : Nat) :
    N (expressionOutput names owner ordinal) :=
  h.joined (h.get hn owner) (h.number ordinal)

theorem Rendering.fieldOutput (h : Rendering env style Q ks N P) (hn : ∀ name ∈ names, N name)
    {f : SelectedField} (hf : f.Named names) (hc : env.HasColumn f.column) : N f.output := by
  obtain ⟨earlier, he⟩ := hf
  have hbase := h.joined (h.get hn f.owner) (h.physical hc)
  rw [he, ObjectQuery.fieldOutput]
  split
  · exact hbase
  · exact h.joined hbase (h.number _)

/-! ## Joins and clauses -/

theorem Rendering.rootTest (h : Rendering env style Q ks N P) (hn : ∀ name ∈ names, N name)
    {use : TableUse} (hd : env.Describes use.component) :
    ∀ k ∈ use.rootTest names, P (Term.partsAll style k.terms) := by
  intro k hk
  obtain ⟨d, hmem, rfl⟩ := List.mem_map.1 hk
  exact h.append (h.test hd (Option.mem_toList.1 hmem) (h.get hn use.id)) h.nil

theorem Rendering.join (h : Rendering env style Q ks N P) (hn : ∀ name ∈ names, N name)
    {n : JoinNode} (hd : env.Describes n.component) (he : ∀ e ∈ n.exprs, e.Within env Q ks) :
    N (n.join names).table ∧ N (n.join names).name ∧
      ∀ k ∈ (n.join names).on, P (Term.partsAll style k.terms) := by
  refine ⟨?_, ?_, fun k hk => ?_⟩
  · cases n
    exact h.table_name hd
  · cases n
    exact h.get hn _
  · rw [join_on] at hk
    obtain ⟨x, hx, rfl⟩ := List.mem_map.1 hk
    exact h.expr hn (he x.1 (mem_exprs_of_mem_predicates hx))

theorem Rendering.items (h : Rendering env style Q ks N P) (hn : ∀ name ∈ names, N name)
    {items : List SelectItem} {hydrated : Bool}
    (he : ∀ e ∈ items.filterMap (·.expr?), e.Within env Q ks)
    (hf : ∀ f ∈ items.filterMap (·.field?), env.HasColumn f.column ∧ (hydrated = true → N f.output)) :
    ∀ i ∈ SelectItem.items names hydrated items,
      P (Term.partsAll style i.terms) ∧ ∀ n ∈ i.name, N n := by
  induction items with
  | nil => exact nofun
  | cons i items ih =>
    cases i with
    | field f =>
      obtain ⟨⟨hc, ho⟩, hrest⟩ := List.forall_mem_cons.1 hf
      refine List.forall_mem_cons.2 ⟨⟨?_, ?_⟩, ih he hrest⟩
      · exact h.append (h.column (h.get hn _) (h.physical hc)) h.nil
      · cases hydrated with
        | false => exact nofun
        | true =>
          rintro _ ⟨⟩
          exact ho rfl
    | expression o k e name =>
      obtain ⟨hx, hrest⟩ := List.forall_mem_cons.1 he
      refine List.forall_mem_cons.2 ⟨⟨h.expr hn hx, ?_⟩, ih hrest hf⟩
      rintro _ ⟨⟩
      exact h.expressionOutput hn o k

theorem Rendering.orders (h : Rendering env style Q ks N P) (hn : ∀ name ∈ names, N name)
    {ts : List OrderTerm} (he : ∀ t ∈ ts, t.expr.Within env Q ks)
    (hd : ∀ t ∈ ts, ∀ d ∈ t.direction, Tame d.toList) :
    ∀ o ∈ OrderTerm.orders names ts,
      P (Term.partsAll style o.terms) ∧ ∀ d ∈ o.direction, Tame d.toList := by
  induction ts with
  | nil => exact nofun
  | cons t ts ih =>
    obtain ⟨hx, hrest⟩ := List.forall_mem_cons.1 he
    obtain ⟨hdt, hdrest⟩ := List.forall_mem_cons.1 hd
    obtain ⟨e, direction, implicit⟩ := t
    exact List.forall_mem_cons.2 ⟨⟨h.expr hn hx, hdt⟩, ih hrest hdrest⟩

/-- The constituents of the statement of a query. -/
theorem Rendering.toSelect (h : Rendering env style Q ks N P) (hn : ∀ name ∈ names, N name)
    {hydrated : Bool} {emitted : List AliasId} (hq : QueryWithin env Q ks g c)
    (ho : hydrated = true → ∀ f ∈ c.select.filterMap (·.field?), N f.output) :
    (c.toSelect names hydrated (g.root.rootTable names) (g.sqlJoins names emitted)
      (g.root.rootTest names)).Each style N P := by
  have hroot := (hq.derived g.root List.mem_cons_self).described
  obtain ⟨distinct, select, filter, groupBy, having, orderBy, limit, offset⟩ := c
  refine ⟨h.items hn hq.clauses.select fun f hf => ⟨hq.fields f hf, fun hh => ho hh f hf⟩,
    h.table (h.table_name hroot) (h.get hn _), fun j hj => ?_, fun k hk => ?_, fun ts hts => ?_,
    fun ts hts => ?_, h.orders hn hq.clauses.orderBy hq.directions⟩
  · obtain ⟨n, hmem, rfl⟩ := mem_sqlJoins hj
    exact h.join hn (hq.derived n hmem).described (hq.joins n hmem)
  · rcases List.mem_append.1 hk with hk | hk
    · obtain ⟨ts, hts, rfl⟩ := List.mem_map.1 hk
      rw [termsOption_eq, Option.mem_toList, Option.map_eq_some_iff] at hts
      obtain ⟨e, he, rfl⟩ := hts
      exact h.expr hn (hq.clauses.filter e he)
    · exact h.rootTest hn hroot k hk
  · have hts : ts ∈ Expr.termsEach names groupBy := hts
    rw [termsEach_eq] at hts
    obtain ⟨e, he, rfl⟩ := List.mem_map.1 hts
    exact h.expr hn (hq.clauses.groupBy e he)
  · have hts : Expr.termsOption names having = some ts := hts
    rw [termsOption_eq, Option.map_eq_some_iff] at hts
    obtain ⟨e, he, rfl⟩ := hts
    exact h.expr hn (hq.clauses.having e he)

/-! ## Plans -/

/-- What is known of a plan that statements are made of. -/
structure PlanWithin (env : Surroundings) (Q : Subquery → Prop) (ks : List Nat) (p : QueryPlan) :
    Prop extends QueryWithin env Q ks p.graph p.clauses where
  aliases : ∀ name ∈ p.aliases, IsName name
  shadow : ∀ names ∈ p.shadowAliases, ∀ name ∈ names, IsName name
  outputs : ∀ f ∈ p.clauses.select.filterMap (·.field?), f.Named p.aliases

theorem ClauseSet.each_ordinals (c : ClauseSet) (joins : List Nat) :
    c.Each fun e => ∀ n ∈ e.ordinals, n ∈ c.ordinals joins := by
  have hmem {es : List Expr} {n : Nat} {e : Expr} (he : e ∈ es) (hn : n ∈ e.ordinals) :
      n ∈ es.flatMap Expr.ordinals := List.mem_flatMap.2 ⟨e, he, hn⟩
  rw [ClauseSet.ordinals_eq]
  refine ⟨fun e he n hn => ?_, fun e he n hn => ?_, fun e he n hn => ?_, fun e he n hn => ?_,
    fun t ht n hn => ?_⟩
  · simp [hmem he hn]
  · simp [show n ∈ c.filter.toList.flatMap Expr.ordinals from hmem (Option.mem_toList.2 he) hn]
  · simp [hmem he hn]
  · simp [show n ∈ c.having.toList.flatMap Expr.ordinals from hmem (Option.mem_toList.2 he) hn]
  · simp [show n ∈ c.orderBy.flatMap (·.expr.ordinals) from List.mem_flatMap.2 ⟨t, ht, hn⟩]

theorem JoinGraph.mem_ordinals {n : JoinNode} {e : Expr} {k : Nat} (hn : n ∈ g.nodes)
    (he : e ∈ n.exprs) (hk : k ∈ e.ordinals) : k ∈ g.ordinals := by
  rw [JoinGraph.ordinals_eq]
  refine List.mem_flatMap.2 ⟨n, hn, ?_⟩
  obtain ⟨use, structural, condition, extra⟩ := n
  simp only [JoinNode.exprs, List.mem_append, List.mem_map] at he
  simp only [JoinNode.ordinals, Expr.ordinalsOption_eq, JoinCondition.ordinalsOption_eq,
    Expr.ordinalsAll_eq, List.mem_append, List.mem_flatMap]
  rcases he with (he | ⟨c, hc, rfl⟩) | he
  · exact .inl (.inl ⟨e, he, hk⟩)
  · exact .inl (.inr ⟨c, hc, hk⟩)
  · exact .inr ⟨e, he, hk⟩

theorem ClauseSet.Each.within (h : c.Each (·.Sound env Q))
    (h' : c.Each fun e => ∀ n ∈ e.ordinals, n ∈ ks) : c.Each (·.Within env Q ks) :=
  ⟨fun e he => ⟨h.select e he, h'.select e he⟩, fun e he => ⟨h.filter e he, h'.filter e he⟩,
    fun e he => ⟨h.groupBy e he, h'.groupBy e he⟩, fun e he => ⟨h.having e he, h'.having e he⟩,
    fun t ht => ⟨h.orderBy t ht, h'.orderBy t ht⟩⟩

/-- The joins and clauses that come from a query, when its expressions are sound. -/
theorem QueryFrom.within {R : Origin} {T : Text} {base : Nat} {q : Query}
    (h : QueryFrom env R T base q g c) (hs : QuerySound env Q g c) :
    QueryWithin env Q (c.ordinals g.ordinals) g c := by
  refine ⟨hs.clauses.within (c.each_ordinals _), fun n hn e he => ⟨hs.joins n hn e he,
    fun k hk => ?_⟩, h.graph.derived, h.fields, h.directions⟩
  have := JoinGraph.mem_ordinals hn he hk
  rw [ClauseSet.ordinals_eq]
  simp [this]

/-- A subquery of the text is made of sound expressions. -/
theorem SubqueryFrom.within {levels : Nat} {T : Text} {param off : Nat} {inner : Text}
    {q : Subquery} (hQ : ∀ r, (SubqueryFrom env levels).Any r → Q r)
    (h : SubqueryFrom env (levels + 1) T param off inner q) :
    QueryWithin env Q (q.clauses.ordinals q.graph.ordinals) q.graph q.clauses := by
  have hsound := h.sound.mono hQ
  obtain ⟨-, -, -, _, -, hq⟩ := h
  exact hq.within hsound

/-- A plan that comes from a text is made of sound expressions. -/
theorem PlanFrom.within {T : Text} (hQ : ∀ q, env.origin.Any q → Q q) (h : PlanFrom env T p) :
    PlanWithin env Q p.ordinals p := by
  obtain ⟨q, -, hq⟩ := h.query
  exact ⟨hq.within (h.sound.mono hQ), h.aliases, h.shadow, h.outputs⟩

theorem Rendering.planSelect (h : Rendering env style Q ks N P) (hn : ∀ name ∈ names, N name)
    (hq : QueryWithin env Q ks p.graph c) (ho : ∀ f ∈ c.select.filterMap (·.field?), N f.output) :
    (p.toSelect names c).Each style N P :=
  h.toSelect hn hq fun _ => ho

theorem Expr.Within.inlined {e : Expr} (hc : ∀ x ∈ c.selectExprs, x.Within env Q ks)
    (h : e.Within env Q ks) : (e.inlined c).Within env Q ks := by
  refine ⟨h.sound.inlined fun x hx => (hc x hx).sound, fun n hn => ?_⟩
  rcases Expr.mem_ordinals_inlined hn with hn | ⟨x, hx, hn⟩
  · exact h.mem n hn
  · exact (hc x hx).mem n hn

theorem Rendering.keyItems (h : Rendering env style Q ks N P) {qualifier : String}
    {keys : List String} (hq : N qualifier) (hk : ∀ key ∈ keys, N key) :
    ∀ i ∈ keyItems qualifier keys, P (Term.partsAll style i.terms) ∧ ∀ n ∈ i.name, N n := by
  intro i hi
  cases keys with
  | nil =>
    rw [List.mem_singleton.1 hi]
    exact ⟨h.nil, nofun⟩
  | cons k keys =>
    obtain ⟨key, hkey, rfl⟩ := List.mem_map.1 hi
    exact ⟨h.append (h.column hq (hk key hkey)) h.nil, nofun⟩

theorem Rendering.rootKeys (h : Rendering env style Q ks N P) (hp : PlanWithin env Q ks p) :
    ∀ key ∈ p.rootKeys, N key := fun _ hk =>
  h.physical (hasColumn_of_mem_keyNames (hp.derived _ List.mem_cons_self).described hk)

/-! ## Limits -/

theorem QueryPlan.mem_orderOutputs {e : Expr} :
    e ∈ p.orderOutputs ↔ p.isRootKey e = false ∧ ∃ t ∈ p.explicitOrder, t.expr = e := by
  suffices hall : ∀ (es outputs : List Expr), e ∈ es.foldl
      (fun outputs e => if p.isRootKey e || outputs.any (fun o => o = e) then outputs
        else outputs ++ [e]) outputs ↔ (p.isRootKey e = false ∧ e ∈ es) ∨ e ∈ outputs by
    rw [orderOutputs, hall]
    simp only [List.mem_map, List.not_mem_nil, or_false]
  intro es
  induction es with
  | nil => simp
  | cons x es ih =>
    intro outputs
    rw [List.foldl_cons, ih, List.mem_cons]
    by_cases hx : p.isRootKey x = true ∨ x ∈ outputs
    · have htaken : (p.isRootKey x || outputs.any fun o => o = x) = true := by simpa using hx
      rw [if_pos htaken]
      constructor
      · exact Or.imp_left fun ⟨hkey, he⟩ => ⟨hkey, .inr he⟩
      · rintro (⟨hkey, rfl | he⟩ | he)
        · exact .inr (hx.resolve_left (by simp [hkey]))
        · exact .inl ⟨hkey, he⟩
        · exact .inr he
    · have hnew : ¬(p.isRootKey x || outputs.any fun o => o = x) = true := by simpa using hx
      rw [if_neg hnew, List.mem_append, List.mem_singleton]
      have hkey : p.isRootKey x = false := by simpa using fun h => hx (.inl h)
      constructor
      · rintro (⟨hkey, he⟩ | he | rfl)
        · exact .inl ⟨hkey, .inr he⟩
        · exact .inr he
        · exact .inl ⟨hkey, .inl rfl⟩
      · rintro (⟨hkey, rfl | he⟩ | he)
        · exact .inr (.inr rfl)
        · exact .inl ⟨hkey, he⟩
        · exact .inr (.inl he)

theorem Rendering.rootSelect (h : Rendering env style Q ks N P) (hp : PlanWithin env Q ks p)
    (hn : ∀ name ∈ names, IsName name) : (p.rootSelect names).Each style N P := by
  have hn : ∀ name ∈ names, N name := fun name hmem => h.name (hn name hmem)
  have hin {e : Expr} (he : e.Within env Q ks) : (e.inlined p.clauses).Within env Q ks :=
    he.inlined hp.clauses.select
  have hexplicit : ∀ t ∈ p.explicitOrder, t ∈ p.clauses.orderBy := fun t ht =>
    (List.mem_filter.1 ht).1
  have hoption : ∀ e ∈ p.clauses.having.map (·.inlined p.clauses), e.Within env Q ks := by
    intro e he
    obtain ⟨x, hx, rfl⟩ := Option.map_eq_some_iff.1 he
    exact hin (hp.clauses.having x hx)
  have hq : QueryWithin env Q ks p.graph {
      distinct := !p.ordersByJoin
      select := []
      filter := p.clauses.filter
      groupBy := p.clauses.groupBy.map (·.inlined p.clauses)
      having := p.clauses.having.map (·.inlined p.clauses)
      orderBy := p.explicitOrder.map fun t => { t with expr := t.expr.inlined p.clauses }
      limit := none
      offset := none } :=
    ⟨⟨nofun, hp.clauses.filter,
      List.forall_mem_map.2 fun e he => hin (hp.clauses.groupBy e he), hoption,
      List.forall_mem_map.2 fun t ht => hin (hp.clauses.orderBy t (hexplicit t ht))⟩, hp.joins,
      hp.derived, nofun, List.forall_mem_map.2 fun t ht => hp.directions t (hexplicit t ht)⟩
  obtain ⟨-, hsource, hjoins, hfilter, hgroup, hhaving, horder⟩ := h.planSelect hn hq nofun
  refine ⟨fun i hi => ?_, hsource, hjoins, hfilter, hgroup, hhaving, horder⟩
  rcases List.mem_append.1 hi with hi | hi
  · exact h.keyItems (h.get hn _) (h.rootKeys hp) i hi
  · obtain ⟨ts, hts, rfl⟩ := List.mem_map.1 hi
    rw [termsEach_eq, List.map_map] at hts
    obtain ⟨e, he, rfl⟩ := List.mem_map.1 hts
    split at he
    · cases he
    · obtain ⟨-, t, ht, rfl⟩ := QueryPlan.mem_orderOutputs.1 he
      exact ⟨h.expr hn (hin (hp.clauses.orderBy t (hexplicit t ht))), nofun⟩

theorem Rendering.projectKeys (h : Rendering env style Q ks N P) (hp : PlanWithin env Q ks p)
    {distinct : Bool} {s : Select} {name : String} {spelled : Bool} (hs : s.Each style N P)
    (hname : N name) :
    (QueryPlan.projectKeys p.rootKeys distinct s name spelled).Each style N P :=
  ⟨h.keyItems hname (h.rootKeys hp), h.derived (hs.parts h.toCompositional) hname, nofun, nofun,
    nofun, nofun, nofun⟩

theorem Rendering.limitedKeys (h : Rendering env style Q ks N P) (hp : PlanWithin env Q ks p)
    (d : Dialect) : (p.limitedKeys d).Each style N P := by
  have hnames : ∀ name ∈ p.shadowAliases.getD p.aliases, IsName name := by
    cases hs : p.shadowAliases with
    | none => exact hp.aliases
    | some names => exact hp.shadow names hs
  have hlimit {s : Select} {limit offset : Option Nat} (hs : s.Each style N P) :
      Select.Each style N P { s with limit := limit, offset := offset } :=
    ⟨hs.items, hs.source, hs.joins, hs.filter, hs.groupBy, hs.having, hs.orderBy⟩
  have htable : N QueryPlan.limitTable := h.name (by decide)
  have hwrap : N QueryPlan.limitWrapTable := h.name (by decide)
  have hroots := h.rootSelect hp hnames
  simp only [QueryPlan.limitedKeys]
  split
  · split
    · exact h.projectKeys hp (hlimit (h.projectKeys hp hroots htable)) hwrap
    · exact hlimit (h.projectKeys hp hroots htable)
  · split
    · exact h.projectKeys hp (hlimit hroots) htable
    · split
      · exact h.projectKeys hp (hlimit hroots) hwrap
      · exact hlimit hroots

theorem partsAll_append (ts us : List Term) :
    Term.partsAll style (ts ++ us) = Term.partsAll style ts ++ Term.partsAll style us := by
  rw [partsAll_eq, partsAll_eq, partsAll_eq, List.flatMap_append]

theorem Rendering.separateTerms (h : Rendering env style Q ks N P) {separator : String}
    {tss : List (List Term)} (hs : Tame separator.toList)
    (ht : ∀ ts ∈ tss, P (Term.partsAll style ts)) :
    P (Term.partsAll style (separateTerms separator tss)) := by
  induction tss with
  | nil => exact h.nil
  | cons ts tss ih =>
    obtain ⟨hts, hrest⟩ := List.forall_mem_cons.1 ht
    cases tss with
    | nil => exact hts
    | cons us tss =>
      show P (Term.partsAll style (ts ++ .raw separator.toList :: Sql.separateTerms separator (us :: tss)))
      rw [partsAll_append]
      exact h.append hts (h.cons_say hs (ih hrest))

/-- The tuple of key columns, and the statement that lists the keys between parentheses. -/
theorem Rendering.rootAmong (h : Rendering env style Q ks N P) (hp : PlanWithin env Q ks p)
    {s : Select} (hs : s.Each style N P) : P (Term.partsAll style (p.rootAmong s).terms) := by
  have hn : ∀ name ∈ p.aliases, N name := fun name hmem => h.name (hp.aliases name hmem)
  have hcolumns : P (Term.partsAll style (Sql.separateTerms ", " (p.rootKeys.map fun key =>
      [.column (p.aliases.get p.graph.root.id) key]))) := by
    refine h.separateTerms (by decide) (List.forall_mem_map.2 fun key hkey => ?_)
    exact h.append (h.column (h.get hn _) (h.rootKeys hp key hkey)) h.nil
  have hkeys : P (Term.partsAll style [.raw " IN (".toList, .select s, .raw [')']]) :=
    h.enclosed (a := " IN ".toList) (b := []) (by decide) .nil (hs.parts h.toCompositional)
  rw [QueryPlan.rootAmong]
  dsimp only
  rw [partsAll_append]
  refine h.append ?_ hkeys
  split
  · rw [partsAll_append]
    exact h.enclosedParts hcolumns
  · exact hcolumns

theorem Rendering.selectStatement (h : Rendering env style Q ks N P) (hp : PlanWithin env Q ks p)
    (d : Dialect) : P ((p.selectStatement d).parts style) := by
  have hn : ∀ name ∈ p.aliases, N name := fun name hmem => h.name (hp.aliases name hmem)
  have hfull := h.planSelect hn hp.toQueryWithin fun f hf =>
    h.fieldOutput hn (hp.outputs f hf) (hp.fields f hf)
  simp only [QueryPlan.selectStatement]
  split
  · refine Select.Each.parts h.toCompositional
      ⟨hfull.items, hfull.source, hfull.joins, ?_, hfull.groupBy, hfull.having, hfull.orderBy⟩
    exact List.forall_mem_cons.2 ⟨h.rootAmong hp (h.limitedKeys hp d), hfull.filter⟩
  · exact hfull.parts h.toCompositional

/-! ## Counts -/

theorem ClauseSet.mem_havingOutputs {i : SelectItem} (hi : i ∈ c.havingOutputs) :
    i ∈ c.select ∧ i.field? = none := by
  obtain ⟨r, -, hr⟩ := List.mem_filterMap.1 hi
  refine ⟨List.mem_of_find?_eq_some hr, ?_⟩
  have := List.find?_some hr
  cases i with
  | field f => cases this
  | expression o k e name => rfl

theorem hasColumn_of_mem_columns {e : Expr} {x : AliasId × String} (he : e.Sound env Q)
    (hx : x ∈ e.columns) : env.HasColumn x.2 := by
  obtain ⟨piece, hp, h⟩ := List.mem_filterMap.1 hx
  cases piece with
  | column id name =>
    cases h
    exact he.pieces _ hp
  | text | output | placeholder | subquery | discriminator => cases h

theorem hasColumn_of_asColumn? {e : Expr} {id : AliasId} {column : String} (he : e.Sound env Q)
    (h : e.asColumn? = some (id, column)) : env.HasColumn column := by
  simp only [Expr.asColumn?] at h
  split at h
  · rename_i hp
    cases h
    exact he.pieces (.column id column) (by rw [hp]; exact List.mem_cons_self)
  · cases h

theorem Rendering.groupItems (h : Rendering env style Q ks N P) (hn : ∀ name ∈ names, N name)
    {groupBy : List Expr} (hg : ∀ e ∈ groupBy, e.Within env Q ks) :
    ∀ i ∈ QueryPlan.groupItems names groupBy,
      P (Term.partsAll style i.terms) ∧ ∀ n ∈ i.name, N n := by
  intro i hi
  obtain ⟨⟨e, k⟩, hmem, rfl⟩ := List.mem_map.1 hi
  have he := hg e (List.fst_mem_of_mem_zipIdx hmem)
  refine ⟨h.expr hn he, ?_⟩
  rintro _ ⟨⟩
  simp only [QueryPlan.groupName]
  split
  · rename_i hc
    exact h.joined (h.get hn _) (h.physical (hasColumn_of_asColumn? he.sound hc))
  · exact h.append_name (h.name (by decide)) (h.number k)

/-- The constituents of the statement over the joins and conditions of a plan. -/
theorem Rendering.countBody (h : Rendering env style Q ks N P) (hp : PlanWithin env Q ks p)
    {distinct : Bool} {items : List Sql.Item}
    (hi : ∀ i ∈ items, P (Term.partsAll style i.terms) ∧ ∀ n ∈ i.name, N n) :
    (p.countBody distinct items).Each style N P := by
  have hn : ∀ name ∈ p.aliases, N name := fun name hmem => h.name (hp.aliases name hmem)
  have hfull := h.planSelect hn hp.toQueryWithin fun f hf =>
    h.fieldOutput hn (hp.outputs f hf) (hp.fields f hf)
  exact ⟨hi, hfull.source, hfull.joins, hfull.filter, hfull.groupBy, hfull.having, nofun⟩

theorem Rendering.selectFrom (h : Rendering env style Q ks N P) {distinct : Bool}
    {items : List Sql.Item} {s : Select} {name : String}
    (hi : ∀ i ∈ items, P (Term.partsAll style i.terms) ∧ ∀ n ∈ i.name, N n)
    (hs : s.Each style N P) (hname : N name) :
    (QueryPlan.selectFrom distinct items s name).Each style N P :=
  ⟨hi, h.derived (hs.parts h.toCompositional) hname, nofun, nofun, nofun, nofun, nofun⟩

theorem Rendering.countItem (h : Rendering env style Q ks N P) {countAlias : String}
    (hc : N countAlias) : ∀ i ∈ ([⟨[.raw "COUNT(*)".toList], some countAlias⟩] : List Sql.Item),
      P (Term.partsAll style i.terms) ∧ ∀ n ∈ i.name, N n := by
  intro i hi
  rw [List.mem_singleton.1 hi]
  have hcount : Tame "COUNT".toList := by decide
  have hstar : Tame ['*'] := by decide
  refine ⟨h.text fun s => ⟨hcount.neutral.1.append hstar.neutral.1.enclosed,
    Scanner.count_eq_zero (by decide)⟩, ?_⟩
  rintro _ ⟨⟩
  exact hc

/-- The result columns that `HAVING` asks for. -/
theorem Rendering.havingOutputs (h : Rendering env style Q ks N P) (hp : PlanWithin env Q ks p)
    (hn : ∀ name ∈ p.aliases, N name) :
    ∀ i ∈ SelectItem.items p.aliases true p.clauses.havingOutputs,
      P (Term.partsAll style i.terms) ∧ ∀ n ∈ i.name, N n := by
  refine h.items hn (fun e he => ?_) fun f hf => ?_
  · obtain ⟨i, hi, he⟩ := List.mem_filterMap.1 he
    exact hp.clauses.select e (List.mem_filterMap.2 ⟨i, (ClauseSet.mem_havingOutputs hi).1, he⟩)
  · obtain ⟨i, hi, hf⟩ := List.mem_filterMap.1 hf
    rw [(ClauseSet.mem_havingOutputs hi).2] at hf
    cases hf

/-- The columns that `HAVING` asks for. -/
theorem Rendering.havingColumns (h : Rendering env style Q ks N P) (hp : PlanWithin env Q ks p)
    (hn : ∀ name ∈ p.aliases, N name) :
    ∀ i ∈ (p.havingColumns.map fun r =>
      ⟨[.column (p.aliases.get r.1) r.2], none⟩ : List Sql.Item),
      P (Term.partsAll style i.terms) ∧ ∀ n ∈ i.name, N n := by
  refine List.forall_mem_map.2 fun r hr => ⟨?_, nofun⟩
  have hr := (List.mem_filter.1 (List.mem_eraseDups.1 hr)).1
  obtain ⟨e, he, hr⟩ := List.mem_flatMap.1 hr
  have he := hp.clauses.having e (Option.mem_toList.1 he)
  exact h.append (h.column (h.get hn _) (h.physical (hasColumn_of_mem_columns he.sound hr))) h.nil

theorem Rendering.countStatement (h : Rendering env style Q ks N P) (hp : PlanWithin env Q ks p)
    {countAlias : String} (hc : N countAlias) : P ((p.countStatement countAlias).parts style) := by
  have hn : ∀ name ∈ p.aliases, N name := fun name hmem => h.name (hp.aliases name hmem)
  have hcount := h.countItem hc
  have htable : N QueryPlan.countTable := h.name (by decide)
  have hwrap : N QueryPlan.countWrapTable := h.name (by decide)
  have hkeys := h.keyItems (h.get hn p.graph.root.id) (h.rootKeys hp)
  have houtputs := h.havingOutputs hp hn
  refine Select.Each.parts h.toCompositional ?_
  rw [QueryPlan.countStatement]
  dsimp only
  split
  · refine h.selectFrom hcount (h.countBody hp (List.forall_mem_append.2 ⟨?_, houtputs⟩)) htable
    exact h.groupItems hn hp.clauses.groupBy
  · split
    · refine h.selectFrom hcount (h.selectFrom (h.keyItems htable (h.rootKeys hp))
        (h.countBody hp ?_) htable) hwrap
      exact List.forall_mem_append.2 ⟨List.forall_mem_append.2 ⟨hkeys, houtputs⟩,
        h.havingColumns hp hn⟩
    · split
      · exact h.selectFrom hcount (h.countBody hp hkeys) htable
      · exact h.countBody hp hcount

end
end ObjectQuery
