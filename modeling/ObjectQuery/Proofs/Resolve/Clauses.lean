import ObjectQuery.Proofs.Resolve.From
import ObjectQuery.Proofs.Resolve.Items
import ObjectQuery.Resolve.Clauses

/-! # Clauses are resolved item by item

What the clauses of a query are resolved to comes from their texts and reads occurrences that
exist. An item of a select list that stands for columns holds no placeholder.

* `runs_resolveSelectItem`: an item is an expression that is kept, or the columns of an occurrence
  (`ColumnsOf`);
* `runs_resolveClauses`: what a run of all clauses consists of;
* `resolveSelect_spec`: the select list;
* `resolveClauses_spec`: all clauses. -/

namespace ObjectQuery

open Resolve

variable {env : Surroundings} {R : Origin} {T : Text} {subquery : ResolveSubquery}
  {clause : Clause} {bare : BareWords} {param off n m : Nat} {b b' : Bindings} {graph : JoinGraph}

/-! ## Parts of the text -/

theorem Segment.Lies.stands {s : Scanner} {base : Nat} {t : Text} {g : Segment}
    (h : g.Lies s base t) (ht : s.Stands T off base t) : ∃ pos, s.Stands T pos g.firstParam g.text := by
  obtain ⟨pos, p, hs, hp⟩ := h
  exact ⟨_, hp ▸ ht.trans hs⟩

theorem Segment.Lies.after {s : Scanner} {base : Nat} {t : Text} {g : Segment}
    (h : g.Lies s 0 t) : (g.after base).Lies s base t := by
  obtain ⟨pos, p, hs, hp⟩ := h
  exact ⟨pos, p, hs, by rw [Segment.after, hp, Nat.zero_add]⟩

theorem PartsFrom.nil : PartsFrom env R T [] [] := ⟨[], .nil, rfl⟩

theorem PartsFrom.append {ks ls : List Nat} {ds es : List Expr} (h : PartsFrom env R T ks ds)
    (h' : PartsFrom env R T ls es) : PartsFrom env R T (ks ++ ls) (ds ++ es) := by
  obtain ⟨parts, hp, rfl⟩ := h
  obtain ⟨parts', hp', rfl⟩ := h'
  exact ⟨parts ++ parts', List.rel_append hp hp', List.flatMap_append⟩

theorem PartsFrom.singleton {g : Segment} {e : Expr} (h : ExprFrom env R T g e) :
    PartsFrom env R T (g.ordinals env.config.scanner) [e] :=
  ⟨[g], .cons h .nil, by simp⟩

theorem Item.Core.segment {s : Scanner} {i : Item} {u : Text} (h : Item.Core s i.text u)
    (hi : s.Stands T off i.param i.text) : (∃ pos, s.Stands T pos i.param u) ∧
      (Segment.mk u i.param).ordinals s = i.segment.ordinals s := by
  obtain ⟨pos, hs⟩ := h.stands
  refine ⟨⟨_, hi.trans hs⟩, ?_⟩
  simp only [Segment.ordinals, h.count]
  rfl

/-! ## Columns -/

/-- What is known of a select item: it reads occurrences that exist and columns of the schema. -/
structure SelectItem.Sound (env : Surroundings) (n : Nat) (i : SelectItem) : Prop where
  below : i.reads.Below n
  column : ∀ f ∈ i.field?, env.HasColumn f.column

theorem SelectItem.Sound.mono {i : SelectItem} (h : i.Sound env n) (hn : n ≤ m) : i.Sound env m :=
  ⟨h.below.mono hn, h.column⟩

/-- The select items are columns and hold no expressions. -/
structure FieldsOnly (env : Surroundings) (n : Nat) (items : List SelectItem) : Prop where
  sound : ∀ i ∈ items, i.Sound env n
  exprs : items.filterMap (·.expr?) = []

theorem fieldsOnly_ofColumns {id : AliasId} {c : Component} {columns : List Column}
    {implicit : Bool} (hid : id < n) (hc : env.Describes c) (hcols : ∀ x ∈ columns, x ∈ c.columns) :
    FieldsOnly env n (columns.map fun x => .ofColumn id x implicit) := by
  refine ⟨fun i hi => ?_, List.filterMap_eq_nil_iff.2 fun i hi => ?_⟩
  · obtain ⟨x, hx, rfl⟩ := List.mem_map.1 hi
    refine ⟨AliasSet.below_ofList.2 fun a ha => List.mem_singleton.1 ha ▸ hid, ?_⟩
    rintro _ ⟨⟩
    exact hc.hasColumn (hcols x hx)
  · obtain ⟨x, hx, rfl⟩ := List.mem_map.1 hi
    rfl

theorem fieldsOnly_ofColumn {id : AliasId} {c : Component} {column : Column} {implicit : Bool}
    (hid : id < n) (hc : env.Describes c) (hcol : column ∈ c.columns) :
    FieldsOnly env n [.ofColumn id column implicit] := by
  have hcols : ∀ x ∈ [column], x ∈ c.columns := fun _ hx => List.mem_singleton.1 hx ▸ hcol
  exact fieldsOnly_ofColumns hid hc hcols

theorem allFields_spec (hg : graph.Sound env n) : FieldsOnly env n (allFields graph) := by
  have hall : ∀ j ∈ graph.nodes.filter (·.role != .bridge), FieldsOnly env n
      (j.component.columns.map fun c => .ofColumn j.id c false) := fun j hj =>
    have hj := (List.mem_filter.1 hj).1
    fieldsOnly_ofColumns (hg.id_lt j hj) (hg.derived j hj).described fun _ hx => hx
  refine ⟨fun i hi => ?_, List.filterMap_eq_nil_iff.2 fun i hi => ?_⟩
  · obtain ⟨j, hj, hi⟩ := List.mem_flatMap.1 hi
    exact (hall j hj).sound i hi
  · obtain ⟨j, hj, hi⟩ := List.mem_flatMap.1 hi
    exact List.filterMap_eq_nil_iff.1 (hall j hj).exprs i hi

theorem eq_of_starAlias? {t name : Text} (h : starAlias? t = some name) : t = name ++ ['.', '*'] := by
  simp only [starAlias?] at h
  split at h
  · rename_i rest hrev
    cases h
    have := congrArg List.reverse hrev
    simpa using this
  · cases h

/-- The columns that a text in a select list stands for: all of an alias, one of an alias, or one of
the root. -/
inductive ColumnsOf (b : Bindings) (graph : JoinGraph) (t : Text) : List SelectItem → Prop
  | all {name : Text} {id : AliasId} {c : Component} (ht : t = name ++ ['.', '*'])
    (hl : b.resolver.lookup? (String.ofList name) = some id) (hc : b.component? id = some c) :
    ColumnsOf b graph t (c.columns.map fun x => .ofColumn id x false)
  | qualified {name field : String} {id : AliasId} {c : Component} {column : Column}
    (ht : t.path? = some [name, field]) (hl : b.resolver.lookup? name = some id)
    (hc : b.component? id = some c) (hcol : c.column? field = some column) :
    ColumnsOf b graph t [.ofColumn id column false]
  | ofRoot {field : String} {column : Column} (ht : t.path? = some [field])
    (hcol : graph.root.component.column? field = some column) :
    ColumnsOf b graph t [.ofColumn graph.root.id column false]

theorem runs_resolveFields {t : Text} {fields : Option (List SelectItem)}
    (h : (resolveFields graph t).Runs b fields b') :
    b' = b ∧ ∀ items ∈ fields, ColumnsOf b graph t items := by
  simp only [resolveFields] at h
  split at h
  · rename_i name hname
    obtain ⟨id, _, h1, hrest⟩ := runs_bind.1 h
    obtain ⟨hl, rfl⟩ := runs_lookup.1 h1
    obtain ⟨c, _, h2, h3⟩ := runs_bind.1 hrest
    obtain ⟨hc, rfl⟩ := runs_componentOf.1 h2
    obtain ⟨rfl, rfl⟩ := runs_pure.1 h3
    refine ⟨rfl, ?_⟩
    rintro _ ⟨⟩
    exact .all (eq_of_starAlias? hname) hl hc
  · split at h
    · rename_i hp
      obtain ⟨id, _, h1, hrest⟩ := runs_bind.1 h
      obtain ⟨hl, rfl⟩ := runs_lookup.1 h1
      obtain ⟨c, _, h2, h3⟩ := runs_bind.1 hrest
      obtain ⟨hc, rfl⟩ := runs_componentOf.1 h2
      split at h3
      · rename_i column hcol
        obtain ⟨rfl, rfl⟩ := runs_pure.1 h3
        refine ⟨rfl, ?_⟩
        rintro _ ⟨⟩
        exact .qualified hp hl hc hcol
      · exact absurd h3 not_runs_throw
    · rename_i hp
      split at h
      · rename_i column hcol
        obtain ⟨rfl, rfl⟩ := runs_pure.1 h
        refine ⟨rfl, ?_⟩
        rintro _ ⟨⟩
        exact .ofRoot hp hcol
      · obtain ⟨rfl, rfl⟩ := runs_pure.1 h
        exact ⟨rfl, nofun⟩
    · obtain ⟨rfl, rfl⟩ := runs_pure.1 h
      exact ⟨rfl, nofun⟩

/-- A text that stands for columns is tame. -/
theorem ColumnsOf.spec {t : Text} {items : List SelectItem} (hb : b.Sound env)
    (hg : graph.Sound env b.size) (h : ColumnsOf b graph t items) :
    Tame t ∧ FieldsOnly env b.size items := by
  cases h with
  | all ht hl hc =>
    obtain ⟨hid, hname⟩ := hb.lookup hl
    rw [String.toList_ofList] at hname
    rw [ht]
    exact ⟨hname.append (by decide), fieldsOnly_ofColumns hid (hb.describes hc) fun _ hx => hx⟩
  | qualified ht hl hc hcol =>
    exact ⟨Text.tame_of_path? ht, fieldsOnly_ofColumn (hb.lookup hl).1 (hb.describes hc)
      (Component.mem_of_column? hcol)⟩
  | ofRoot ht hcol =>
    have hroot : graph.root ∈ graph.nodes := List.mem_cons_self
    exact ⟨Text.tame_of_path? ht, fieldsOnly_ofColumn (hg.id_lt _ hroot)
      (hg.derived _ hroot).described (Component.mem_of_column? hcol)⟩

/-! ## The select list -/

/-- What is known of the select items that texts with the given ordinals are resolved to. -/
structure SelectFrom (env : Surroundings) (R : Origin) (T : Text) (n : Nat) (ordinals : List Nat)
    (items : List SelectItem) : Prop where
  parts : PartsFrom env R T ordinals (items.filterMap (·.expr?))
  sound : ∀ i ∈ items, i.Sound env n

theorem FieldsOnly.selectFrom {items : List SelectItem} (h : FieldsOnly env n items) :
    SelectFrom env R T n [] items :=
  ⟨h.exprs ▸ .nil, h.sound⟩

theorem SelectFrom.append {ks ls : List Nat} {is js : List SelectItem}
    (h : SelectFrom env R T m ks is) (hn : m ≤ n) (h' : SelectFrom env R T n ls js) :
    SelectFrom env R T n (ks ++ ls) (is ++ js) := by
  refine ⟨List.filterMap_append ▸ h.parts.append h'.parts, fun i hi => ?_⟩
  exact (List.mem_append.1 hi).elim (fun hi => (h.sound i hi).mono hn) (h'.sound i)

/-- A select expression belongs to the first alias of the graph that it reads, or to the root. -/
def JoinGraph.ownerOf (g : JoinGraph) (e : Expr) : AliasId :=
  (e.reads.toList.find? g.contains).getD g.root.id

theorem JoinGraph.ownerOf_lt {e : Expr} (he : e.reads.Below n) (hroot : graph.root.id < n) :
    graph.ownerOf e < n := by
  rw [ownerOf]
  cases hf : e.reads.toList.find? graph.contains with
  | none => exact hroot
  | some id => exact he id (List.mem_of_find?_eq_some hf)

theorem runs_resolveSelectItem {ordinal : Nat} {i : Item} {items : List SelectItem}
    (h : (resolveSelectItem env subquery graph ordinal i).Runs b items b') :
    ∃ u name, splitAlias env.config.scanner i.text = .ok (u, name) ∧
      (b' = b ∧ ColumnsOf b graph u items ∨
        ∃ e, (resolveExpr env.config.scanner subquery .select {} none i.param u).Runs b e b' ∧
          items = [.expression (graph.ownerOf e) ordinal e name]) := by
  obtain ⟨⟨u, name⟩, _, h1, hrest⟩ := runs_bind.1 h
  obtain ⟨hu, rfl⟩ := runs_scanning.1 h1
  refine ⟨u, name, hu, ?_⟩
  have hexpr (h : Runs (do
      let expr ← resolveExpr env.config.scanner subquery .select {} none i.param u
      return [.expression (graph.ownerOf expr) ordinal expr name]) b items b') :
      ∃ e, (resolveExpr env.config.scanner subquery .select {} none i.param u).Runs b e b' ∧
        items = [.expression (graph.ownerOf e) ordinal e name] := by
    obtain ⟨e, _, h2, h3⟩ := runs_bind.1 h
    obtain ⟨rfl, rfl⟩ := runs_pure.1 h3
    exact ⟨e, h2, rfl⟩
  dsimp only at hrest
  split at hrest
  · obtain ⟨_, _, h2, h3⟩ := runs_bind.1 hrest
    obtain ⟨rfl, rfl⟩ := runs_pure.1 h2
    exact .inr (hexpr h3)
  · obtain ⟨fields, _, h2, h3⟩ := runs_bind.1 hrest
    obtain ⟨rfl, hf⟩ := runs_resolveFields h2
    cases fields with
    | some fields =>
      obtain ⟨rfl, rfl⟩ := runs_pure.1 h3
      exact .inl ⟨rfl, hf fields rfl⟩
    | none => exact .inr (hexpr h3)

theorem runs_resolveSelectItems_cons {ordinal : Nat} {i : Item} {is : List Item}
    {items : List SelectItem}
    (h : (resolveSelectItems env subquery graph ordinal (i :: is)).Runs b items b') :
    ∃ first b₁ rest, (resolveSelectItem env subquery graph ordinal i).Runs b first b₁ ∧
      (resolveSelectItems env subquery graph (ordinal + expressionCount first) is).Runs b₁ rest b' ∧
      items = first ++ rest := by
  obtain ⟨first, b₁, h1, h⟩ := runs_bind.1 h
  obtain ⟨rest, _, h2, h3⟩ := runs_bind.1 h
  obtain ⟨rfl, rfl⟩ := runs_pure.1 h3
  exact ⟨first, b₁, rest, h1, h2, rfl⟩

theorem runs_resolveSelect_some {g : Segment} {items : List SelectItem}
    (h : (resolveSelect env subquery graph param (some g)).Runs b items b') :
    ∃ is, segmentItems env.config.scanner .select param g = .ok is ∧
      (resolveSelectItems env subquery graph 0 is).Runs b items b' := by
  obtain ⟨is, _, h1, h2⟩ := runs_bind.1 h
  obtain ⟨his, rfl⟩ := runs_lift.1 h1
  exact ⟨is, his, h2⟩

theorem resolveSelectItem_spec {ordinal : Nat} {i : Item} {items : List SelectItem}
    (hsub : subquery.Yields env R) (hb : b.Sound env) (hg : graph.Sound env b.size)
    (hi : env.config.scanner.Stands T off i.param i.text)
    (h : (resolveSelectItem env subquery graph ordinal i).Runs b items b') :
    b.Extends env b' ∧
      SelectFrom env R T b'.size (i.segment.ordinals env.config.scanner) items := by
  obtain ⟨u, name, hu, hres⟩ := runs_resolveSelectItem h
  have hcore := splitAlias_spec hu
  obtain ⟨⟨pos, hs⟩, hord⟩ := hcore.segment hi
  rcases hres with ⟨rfl, hcolumns⟩ | ⟨e, hrun, rfl⟩
  · obtain ⟨ht, hf⟩ := hcolumns.spec hb hg
    refine ⟨.refl hb, ?_⟩
    rw [← hord, Segment.ordinals, ht.neutral.2]
    exact hf.selectFrom
  · obtain ⟨hext, he, hreads⟩ :=
      resolveExpr_spec (g := ⟨u, i.param⟩) hsub hb BareWords.Sound.empty hs hrun
    refine ⟨hext, ⟨hord ▸ .singleton he, fun j hj => ?_⟩⟩
    rw [List.mem_singleton.1 hj]
    refine ⟨AliasSet.below_insert.2 ⟨?_, hreads⟩, fun f hf => by cases hf⟩
    exact JoinGraph.ownerOf_lt hreads
      (Nat.lt_of_lt_of_le (hg.id_lt _ List.mem_cons_self) hext.size_le)

theorem resolveSelectItems_spec {ordinal : Nat} {is : List Item} {items : List SelectItem}
    (hsub : subquery.Yields env R) (hb : b.Sound env) (hg : graph.Sound env b.size)
    (hi : ∀ i ∈ is, ∃ off, env.config.scanner.Stands T off i.param i.text)
    (h : (resolveSelectItems env subquery graph ordinal is).Runs b items b') :
    b.Extends env b' ∧
      SelectFrom env R T b'.size (is.flatMap (·.segment.ordinals env.config.scanner)) items := by
  induction is generalizing ordinal items b with
  | nil =>
    obtain ⟨rfl, rfl⟩ := runs_pure.1 h
    exact ⟨.refl hb, .nil, nofun⟩
  | cons i is ih =>
    obtain ⟨first, b₁, rest, h1, h2, rfl⟩ := runs_resolveSelectItems_cons h
    obtain ⟨off, hs⟩ := hi i List.mem_cons_self
    obtain ⟨hext, hf⟩ := resolveSelectItem_spec hsub hb hg hs h1
    obtain ⟨hext', hf'⟩ := ih hext.sound (hg.mono hext.size_le)
      (fun j hj => hi j (List.mem_cons_of_mem _ hj)) h2
    exact ⟨hext.trans hext', hf.append hext'.size_le hf'⟩

/-- The clause, if it is written, stands in the text. -/
def ClauseStands (s : Scanner) (T : Text) (param : Nat) (g? : Option Segment) : Prop :=
  ∀ g ∈ g?, ∃ off, s.Stands T off (g.after param).firstParam g.text

theorem ClauseStands.items {s : Scanner} {g : Segment} {is : List Item}
    (hg : ClauseStands s T param (some g)) (h : segmentItems s clause param g = .ok is) :
    (∀ i ∈ is, ∃ off, s.Stands T off i.param i.text) ∧
      is.flatMap (·.segment.ordinals s) = clauseOrdinals s param (some g) := by
  obtain ⟨off, hs⟩ := hg g rfl
  obtain ⟨-, hi, hord⟩ := segmentItems_spec h
  exact ⟨fun i hmem => (hi i hmem).stands hs, hord.trans (List.append_nil _).symm⟩

theorem resolveSelect_spec {clause? : Option Segment} {items : List SelectItem}
    (hsub : subquery.Yields env R) (hb : b.Sound env) (hg : graph.Sound env b.size)
    (hs : ClauseStands env.config.scanner T param clause?)
    (h : (resolveSelect env subquery graph param clause?).Runs b items b') :
    b.Extends env b' ∧
      SelectFrom env R T b'.size (clauseOrdinals env.config.scanner param clause?) items := by
  cases clause? with
  | none =>
    obtain ⟨rfl, rfl⟩ := runs_pure.1 h
    exact ⟨.refl hb, (allFields_spec hg).selectFrom⟩
  | some g =>
    obtain ⟨is, his, hrun⟩ := runs_resolveSelect_some h
    obtain ⟨hi, hord⟩ := hs.items his
    exact hord ▸ resolveSelectItems_spec hsub hb hg hi hrun

/-! ## The other clauses -/

theorem resolveCondition_spec {clause? : Option Segment} {e? : Option Expr}
    (hsub : subquery.Yields env R) (hb : b.Sound env) (hbare : bare.Sound b.size)
    (hs : ClauseStands env.config.scanner T param clause?)
    (h : (resolveCondition env subquery clause bare param clause?).Runs b e? b') :
    b.Extends env b' ∧ ListFrom env R T param clause? e?.toList ∧
      ∀ e ∈ e?, e.reads.Below b'.size := by
  cases clause? with
  | none =>
    obtain ⟨rfl, rfl⟩ := runs_pure.1 h
    exact ⟨.refl hb, .nil, nofun⟩
  | some g =>
    obtain ⟨e, h1, rfl⟩ := runs_map.1 h
    obtain ⟨off, hs⟩ := hs g rfl
    obtain ⟨hext, he, hreads⟩ := resolveExpr_spec hsub hb hbare hs h1
    refine ⟨hext, ⟨[_], .cons he .nil, rfl⟩, ?_⟩
    rintro _ ⟨⟩
    exact hreads

theorem runs_resolveList_some {α : Type} {f : Item → Resolve α} {g : Segment} {as : List α}
    (h : (resolveList env clause param f (some g)).Runs b as b') :
    ∃ is, segmentItems env.config.scanner clause param g = .ok is ∧ (is.mapM f).Runs b as b' := by
  obtain ⟨is, _, h1, h2⟩ := runs_bind.1 h
  obtain ⟨his, rfl⟩ := runs_lift.1 h1
  exact ⟨is, his, h2⟩

/-- What is made of an item has an expression that comes from it, and has a property besides. -/
structure MadeFrom {α : Type} (env : Surroundings) (R : Origin) (T : Text) (expr : α → Expr)
    (P : α → Prop) (n : Nat) (i : Item) (a : α) : Prop where
  parts : PartsFrom env R T (i.segment.ordinals env.config.scanner) [expr a]
  below : (expr a).reads.Below n
  property : P a

theorem resolveList_spec {α : Type} {x : α → Expr} {P : α → Prop} {f : Item → Resolve α}
    {clause? : Option Segment} {as : List α} (hb : b.Sound env) (hn : n ≤ b.size)
    (hs : ClauseStands env.config.scanner T param clause?)
    (hf : ∀ i b a b', b.Sound env → n ≤ b.size →
      (∃ off, env.config.scanner.Stands T off i.param i.text) → (f i).Runs b a b' →
      b.Extends env b' ∧ MadeFrom env R T x P b'.size i a)
    (h : (resolveList env clause param f clause?).Runs b as b') :
    b.Extends env b' ∧ ListFrom env R T param clause? (as.map x) ∧
      ∀ a ∈ as, (x a).reads.Below b'.size ∧ P a := by
  cases clause? with
  | none =>
    obtain ⟨rfl, rfl⟩ := runs_pure.1 h
    exact ⟨.refl hb, .nil, nofun⟩
  | some g =>
    obtain ⟨is, his, hrun⟩ := runs_resolveList_some h
    obtain ⟨hi, hord⟩ := hs.items his
    rw [ListFrom, ← hord]
    clear hord his h hs
    induction is generalizing as b with
    | nil =>
      obtain ⟨rfl, rfl⟩ := runs_mapM_nil.1 hrun
      exact ⟨.refl hb, .nil, nofun⟩
    | cons i is ih =>
      obtain ⟨a, b₁, as', ha, has, rfl⟩ := runs_mapM_cons.1 hrun
      obtain ⟨hext, hm⟩ := hf i b a b₁ hb hn (hi i List.mem_cons_self) ha
      obtain ⟨hext', hp, hreads⟩ := ih hext.sound (Nat.le_trans hn hext.size_le) has
        fun j hj => hi j (List.mem_cons_of_mem _ hj)
      refine ⟨hext.trans hext', hm.parts.append hp, fun c hc => ?_⟩
      rcases List.mem_cons.1 hc with rfl | hc
      · exact ⟨hm.below.mono hext'.size_le, hm.property⟩
      · exact hreads c hc

/-- An order term made of an item, by the query itself or by the schema. -/
structure OrderTerm.Ordinary (implicit : Bool) (t : OrderTerm) : Prop where
  direction : ∀ d ∈ t.direction, Tame d.toList
  implicit_eq : t.implicit = implicit

/-- An order term has the expression before the direction of its item. -/
theorem runs_resolveOrderItem {implicit : Bool} {i : Item} {t : OrderTerm}
    (h : (resolveOrderItem env subquery bare implicit i).Runs b t b') :
    ∃ u direction e, splitDirection env.config.scanner i.text = .ok (u, direction) ∧
      (resolveExpr env.config.scanner subquery .orderBy bare none i.param u).Runs b e b' ∧
      t = ⟨e, direction, implicit⟩ := by
  obtain ⟨⟨u, direction⟩, _, h1, h⟩ := runs_bind.1 h
  obtain ⟨hu, rfl⟩ := runs_scanning.1 h1
  obtain ⟨e, _, h2, h3⟩ := runs_bind.1 h
  obtain ⟨rfl, rfl⟩ := runs_pure.1 h3
  exact ⟨u, direction, e, hu, h2, rfl⟩

theorem resolveOrderItem_spec {implicit : Bool} {i : Item} {t : OrderTerm}
    (hsub : subquery.Yields env R) (hb : b.Sound env) (hbare : bare.Sound b.size)
    (hi : env.config.scanner.Stands T off i.param i.text)
    (h : (resolveOrderItem env subquery bare implicit i).Runs b t b') :
    b.Extends env b' ∧ MadeFrom env R T OrderTerm.expr (·.Ordinary implicit) b'.size i t := by
  obtain ⟨u, direction, e, hu, hrun, rfl⟩ := runs_resolveOrderItem h
  obtain ⟨hcore, hd⟩ := splitDirection_spec hu
  obtain ⟨⟨pos, hs⟩, hord⟩ := hcore.segment hi
  obtain ⟨hext, he, hreads⟩ := resolveExpr_spec (g := ⟨u, i.param⟩) hsub hb hbare hs hrun
  exact ⟨hext, hord ▸ .singleton he, hreads, hd, rfl⟩

/-! ## All clauses -/

theorem ClauseSet.mem_of_named? {c : ClauseSet} {name : String} {owner : AliasId} {ordinal : Nat}
    (h : c.named? name = some (owner, ordinal)) :
    ∃ e n, .expression owner ordinal e n ∈ c.select := by
  obtain ⟨i, hi, he⟩ := List.exists_of_findSome?_eq_some h
  rw [List.mem_reverse] at hi
  split at he
  · split at he
    · cases he
      exact ⟨_, _, hi⟩
    · cases he
  · cases he

/-- The texts of all clauses stand in the text. -/
structure ClauseTexts.Stand (s : Scanner) (T : Text) (param : Nat) (q : ClauseTexts) : Prop where
  select : ClauseStands s T param q.select
  filter : ClauseStands s T param q.filter
  groupBy : ClauseStands s T param q.groupBy
  having : ClauseStands s T param q.having
  orderBy : ClauseStands s T param q.orderBy

/-- After the select list, its names and the root may stand alone. -/
theorem BareWords.Sound.ofSelect {c : ClauseSet} {root : AliasId} {n : Nat} (hroot : root < n)
    (hselect : ∀ i ∈ c.select, i.reads.Below n) : BareWords.Sound ⟨c.named?, some root⟩ n := by
  refine ⟨fun name owner ordinal ho => ?_, ?_⟩
  · obtain ⟨e, k, hmem⟩ := ClauseSet.mem_of_named? ho
    exact (AliasSet.below_insert.1 (hselect _ hmem)).1
  · rintro _ ⟨⟩
    exact hroot

/-- The select list is resolved first. Its names and the root may then stand alone, except in
`WHERE`. -/
theorem runs_resolveClauses {q : ClauseTexts} {c : ClauseSet}
    (h : (resolveClauses env subquery graph param q).Runs b c b') : ∃ b₁ b₂ b₃ b₄,
    (resolveSelect env subquery graph param q.select).Runs b c.select b₁ ∧
    (resolveCondition env subquery .where {} param q.filter).Runs b₁ c.filter b₂ ∧
    (resolveList env .groupBy param (fun i => resolveExpr env.config.scanner subquery .groupBy
      ⟨c.named?, some graph.root.id⟩ none i.param i.text) q.groupBy).Runs b₂ c.groupBy b₃ ∧
    (resolveCondition env subquery .having ⟨c.named?, some graph.root.id⟩ param q.having).Runs
      b₃ c.having b₄ ∧
    (resolveList env .orderBy param (resolveOrderItem env subquery
      ⟨c.named?, some graph.root.id⟩ false) q.orderBy).Runs b₄ c.orderBy b' := by
  obtain ⟨items, b₁, h1, hrest⟩ := runs_bind.1 h
  obtain ⟨filter, b₂, h2, hrest⟩ := runs_bind.1 hrest
  obtain ⟨groupBy, b₃, h3, hrest⟩ := runs_bind.1 hrest
  obtain ⟨having, b₄, h4, hrest⟩ := runs_bind.1 hrest
  obtain ⟨orderBy, _, h5, h6⟩ := runs_bind.1 hrest
  obtain ⟨rfl, rfl⟩ := runs_pure.1 h6
  exact ⟨b₁, b₂, b₃, b₄, h1, h2, h3, h4, h5⟩

theorem resolveClauses_spec {q : ClauseTexts} {c : ClauseSet} (hsub : subquery.Yields env R)
    (hb : b.Sound env) (hg : graph.Sound env b.size) (hq : q.Stand env.config.scanner T param)
    (h : (resolveClauses env subquery graph param q).Runs b c b') :
    b.Extends env b' ∧ ClausesFrom env R T param q c ∧ c.Below b'.size ∧
      ∀ t ∈ c.orderBy, t.implicit = false := by
  obtain ⟨b₁, b₂, b₃, b₄, h1, h2, h3, h4, h5⟩ := runs_resolveClauses h
  obtain ⟨hext₁, hselect⟩ := resolveSelect_spec hsub hb hg hq.select h1
  obtain ⟨hext₂, hfilter, hfr⟩ :=
    resolveCondition_spec hsub hext₁.sound BareWords.Sound.empty hq.filter h2
  have hroot : graph.root.id < b₁.size :=
    Nat.lt_of_lt_of_le (hg.id_lt _ List.mem_cons_self) hext₁.size_le
  have hbare₁ : BareWords.Sound ⟨c.named?, some graph.root.id⟩ b₁.size :=
    .ofSelect hroot fun i hi => (hselect.sound i hi).below
  obtain ⟨hext₃, hgroup, hgr⟩ := resolveList_spec (x := id) (P := fun _ => True) hext₂.sound
    hext₂.size_le hq.groupBy (fun i b e b' hb hn hi h => by
      obtain ⟨off, hs⟩ := hi
      obtain ⟨hext, he, hreads⟩ :=
        resolveExpr_spec (g := i.segment) hsub hb (hbare₁.mono hn) hs h
      exact ⟨hext, .singleton he, hreads, trivial⟩) h3
  have hle := Nat.le_trans hext₂.size_le hext₃.size_le
  obtain ⟨hext₄, hhaving, hhr⟩ :=
    resolveCondition_spec hsub hext₃.sound (hbare₁.mono hle) hq.having h4
  obtain ⟨hext₅, horder, hor⟩ := resolveList_spec (x := OrderTerm.expr)
    (P := (·.Ordinary false)) hext₄.sound (Nat.le_trans hle hext₄.size_le) hq.orderBy
    (fun i b e b' hb hn hi h => by
      obtain ⟨off, hs⟩ := hi
      exact resolveOrderItem_spec hsub hb (hbare₁.mono hn) hs h) h5
  have hexplicit : ∀ t ∈ c.orderBy, t.implicit = false := fun t ht => (hor t ht).2.implicit_eq
  refine ⟨hext₁.trans (hext₂.trans (hext₃.trans (hext₄.trans hext₅))),
    ⟨hselect.parts, fun f hf => ?_, hfilter, List.map_id c.groupBy ▸ hgroup, hhaving, ?_,
      fun t ht => (hor t ht).2.direction⟩,
    ⟨fun i hi => ?_, fun e he => ?_, fun e he => ?_, fun e he => ?_, fun t ht => (hor t ht).1⟩,
    hexplicit⟩
  · obtain ⟨i, hi, hf⟩ := List.mem_filterMap.1 hf
    exact (hselect.sound i hi).column f hf
  · have hall : c.orderBy.filter (!·.implicit) = c.orderBy :=
      List.filter_eq_self.2 fun t ht => by rw [hexplicit t ht]; rfl
    rw [ClauseSet.explicitOrder, hall]
    exact horder
  · exact (hselect.sound i hi).below.mono (Nat.le_trans hle
      (Nat.le_trans hext₄.size_le hext₅.size_le))
  · exact (hfr e he).mono (Nat.le_trans hext₃.size_le
      (Nat.le_trans hext₄.size_le hext₅.size_le))
  · exact (hgr e he).1.mono (Nat.le_trans hext₄.size_le hext₅.size_le)
  · exact (hhr e he).mono hext₅.size_le

end ObjectQuery
