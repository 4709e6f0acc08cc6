import ObjectQuery.Proofs.Compiler.Placeholders
import ObjectQuery.Proofs.Resolve.Frames
import ObjectQuery.Proofs.Scope.Query
import ObjectQuery.Proofs.Scope.Visits

/-! # References to aliases that are declared later

The condition of a join may name the aliases of the elements before it and its own. A word with a
point whose alias the `FROM` clause declares only further on is not found there, and planning fails;
so it does in a subquery at any depth. It is found, however, when a query around the subquery has
declared the same alias already: the condition then is about the join of that query.

* `Query.Encloses`: the queries inside a query, with the aliases declared around them;
* `Query.Reaches`: planning comes to one of them;
* `plan_refersForward`: what planning makes of a reference to a later alias. -/

namespace ObjectQuery

open Resolve

variable {env : Surroundings} {subquery : ResolveSubquery} {levels param : Nat} {b b' c d : Bindings}
  {s : Scanner} {T t inner w : Text} {q u v : Query} {names outer : List String} {x : ExprTask}
  {before after : List Joined} {j : Joined} {k : Condition} {fs : List Fragment} {called : Bool}

/-! ## Queries inside a query -/

/-- An expression of a query, with those aliases of the query that it may name: a condition stands
behind its join, and the clauses stand behind all joins. -/
inductive Query.Holds (s : Scanner) (q : Query) : List String → Text → Prop
  | condition {before after : List Joined} {j : Joined} {k : Condition}
    (hj : q.source.joins = before ++ j :: after) (hk : j.condition = some k) :
    Holds s q (FromList.aliases ⟨q.source.root, before ++ [j]⟩) k.segment.text
  | clause {t : Text} (ht : q.toClauseTexts.Holds s t) : Holds s q q.source.aliases t

/-- The query `u` is `q` or stands inside it, at some depth; `outer` are the aliases that the queries
around it have declared by then. -/
inductive Query.Encloses (s : Scanner) (q : Query) : List String → Query → Prop
  | self : Encloses s q [] q
  | inside {names outer : List String} {t inner : Text} {v u : Query} (hv : q.Encloses s outer v)
    (ht : v.Holds s names t) (hinner : .subquery inner ∈ Fragment.ofText s t)
    (hu : Query.parse s inner = .ok u) : Encloses s q (names ++ outer) u

/-- Resolving the query from the bindings `b` comes to the expression `x` with the bindings `c`, when
the query has bound the aliases `names`. -/
inductive Query.ReachesExpr (env : Surroundings) (subquery : ResolveSubquery) (param : Nat)
    (q : Query) (b : Bindings) : List String → ExprTask → Bindings → Prop
  | condition {before after : List Joined} {j : Joined} {k : Condition} {c : Bindings}
    (hj : q.source.joins = before ++ j :: after) (hk : j.condition = some k)
    (h : q.source.Reaches env subquery param before j b c) :
    ReachesExpr env subquery param q b (FromList.aliases ⟨q.source.root, before ++ [j]⟩)
      (j.task q.source.aliases param k) c
  | clause {g : JoinGraph} {b₁ c : Bindings} {x : ExprTask}
    (hfrom : (resolveFrom env subquery param q.source).Runs b g b₁)
    (h : Comes (x.resolve env subquery) c
      (resolveClauses env subquery g param q.toClauseTexts) b₁)
    (hkeeps : b₁.Keeps env c) : ReachesExpr env subquery param q b q.source.aliases x c

/-- Planning `q` comes to the query `u`, which is `q` or stands inside it, with the bindings `b`: all
that is resolved before succeeds. The query may nest `levels` deep, `param` is the ordinal of its
first placeholder, and `outer` are the aliases that the queries around it have bound. -/
inductive Query.Reaches (env : Surroundings) (q : Query) :
    (levels param : Nat) → (u : Query) → (b : Bindings) → (outer : List String) → Prop
  | self : Reaches env q env.config.maxSubqueryDepth 0 q {} []
  | inside {levels param : Nat} {v u : Query} {b c d : Bindings} {names outer : List String}
    {x : ExprTask} {fs : List Fragment} {inner : Text}
    (hv : q.Reaches env (levels + 1) param v b outer)
    (hx : v.ReachesExpr env (resolveSubquery env (levels + 1)) param b names x c)
    (hinner : x.Reaches env (resolveSubquery env (levels + 1)) c fs (.subquery inner) d)
    (hu : Query.parse env.config.scanner inner = .ok u) :
    Reaches env q levels (Fragment.ordinalAfter env.config.scanner x.param fs) u
      { d with resolver := d.resolver.pushScope } (names ++ outer)

/-- What is known of the bindings when a query is come to. -/
structure Query.Enters (env : Surroundings) (u : Query) (outer : List String) (b : Bindings) :
    Prop where
  named : u.source.Named
  tidy : b.Tidy env
  scope : b.resolver.scope = []
  shows : b.Shows outer

theorem Query.Enters.condition (hu : u.Enters env outer b) (hsub : subquery.Nests env)
    (hj : u.source.joins = before ++ j :: after)
    (h : u.source.Reaches env subquery param before j b c) :
    c.Tidy env ∧ b.Enrols (FromList.aliases ⟨u.source.root, before ++ [j]⟩) c := by
  have hjoins := hu.named.joins
  rw [hj] at hjoins
  obtain ⟨hroot, hbefore, -, hgraph, -, hpath⟩ := h
  have hg := resolveRoot_over hu.tidy hu.scope hroot
  have hg₁ := resolveJoins_over hsub hg hbefore
  obtain ⟨hg₂, -⟩ := resolvePath_over hg₁ (JoinGraph.contains_iff.1 hgraph) hpath
  have hnames : ∀ i ∈ before ++ [j], i.source.effectiveAlias ∈
      FromList.aliases ⟨u.source.root, before ++ [j]⟩ := fun i hi =>
    List.mem_cons_of_mem _ (List.mem_map_of_mem hi)
  have hmade := resolveJoins_enrols hsub hg (fun i hi => hjoins i (List.mem_append_left _ hi))
    (fun i hi => hnames i (List.mem_append_left _ hi)) hbefore
  have hwalk := walk_enrols (hjoins j (by simp)) (hnames j (by simp)) hpath
  refine ⟨hg₂.tidy, Bindings.Enrols.trans ?_ (hmade.trans hwalk)⟩
  exact resolveRoot_enrols hu.named.root List.mem_cons_self hroot

theorem Query.Enters.expr (hu : u.Enters env outer b) (hsub : subquery.Nests env)
    (h : u.ReachesExpr env subquery param b names x c) : c.Tidy env ∧ b.Enrols names c := by
  cases h with
  | condition hj _ h => exact hu.condition hsub hj h
  | clause hfrom _ hkeeps =>
    have henrols := resolveFrom_enrols hsub hu.tidy hu.scope hu.named hfrom
    exact ⟨hkeeps.tidy, henrols.trans (.of_keeps hkeeps)⟩

theorem ExprTask.Reaches.keeps {f : Fragment} (h : x.Reaches env subquery c fs f d)
    (hsub : subquery.Nests env) (hc : c.Tidy env) : c.Keeps env d := by
  obtain ⟨ps, hps⟩ := h.before
  exact resolveFragments_keeps hsub hc hps

theorem Query.Reaches.enters (hT : Query.parse env.config.scanner T = .ok q)
    (h : q.Reaches env levels param u b outer) : u.Enters env outer b := by
  induction h with
  | self => exact ⟨(Query.parse_spec hT).named, .empty, rfl, .empty⟩
  | @inside levels _ _ _ _ _ _ _ _ _ _ _ _ hx hinner hu ih =>
    have hsub := resolveSubquery_nests env (levels + 1)
    obtain ⟨htidy, henrols⟩ := ih.expr hsub hx
    have hk := hinner.keeps hsub htidy
    exact ⟨(Query.parse_spec hu).named, hk.tidy.pushScope, rfl,
      ((ih.shows.enrols henrols).keeps hk).pushScope⟩

/-- The levels that are left are counted by the scopes around the query. -/
theorem Query.Reaches.levels_add_depth (hT : Query.parse env.config.scanner T = .ok q)
    (h : q.Reaches env levels param u b outer) :
    levels + b.depth = env.config.maxSubqueryDepth := by
  induction h with
  | self => rfl
  | @inside levels param v u b c d names outer x fs inner hv hx hinner hu ih =>
    have hsub := resolveSubquery_nests env (levels + 1)
    obtain ⟨htidy, henrols⟩ := (hv.enters hT).expr hsub hx
    have houter := (hinner.keeps hsub htidy).outer_eq.trans henrols.outer_eq
    have hdepth : Bindings.depth { d with resolver := d.resolver.pushScope } = b.depth + 1 :=
      congrArg (·.length + 1) houter
    omega

/-! ## Errors -/

theorem Query.ReachesExpr.comes (h : q.ReachesExpr env subquery param b names x c) :
    Comes (x.resolve env subquery) c (resolveQuery env subquery param q) b := by
  cases h with
  | condition hj hk h => exact .first (h.comes hj hk)
  | clause hfrom h _ => exact .next hfrom (.first h)

/-- Whatever is wrong with a query that planning comes to is what is wrong with the whole. -/
theorem Query.Reaches.comes (h : q.Reaches env levels param u b outer) :
    Comes (resolveQuery env (resolveSubquery env levels) param u) b (planQuery env q) {} := by
  induction h with
  | self => exact .first .here
  | @inside levels _ _ u _ _ d _ _ x fs inner _ hx hinner hu ih =>
    have hquery : Comes (resolveQuery env (resolveSubquery env levels)
        (Fragment.ordinalAfter env.config.scanner x.param fs) u)
        { d with resolver := d.resolver.pushScope }
        (x.resolveFragment env (resolveSubquery env (levels + 1)) fs (.subquery inner)) d :=
      .first (.next (runs_lift.2 ⟨hu, rfl⟩) (.first (.within .here)))
    exact ((ih.trans hx.comes).trans hinner.comes).trans hquery

/-! ## Planning that succeeds -/

/-- When a query is resolved, each of its expressions that holds a subquery is come to. -/
theorem Query.Holds.reaches {r : JoinGraph × ClauseSet} (hu : u.Enters env outer b)
    (hsub : subquery.Nests env) (ht : u.Holds env.config.scanner names t)
    (hinner : .subquery inner ∈ Fragment.ofText env.config.scanner t)
    (h : (resolveQuery env subquery param u).Runs b r b') :
    ∃ x c e d, x.text = t ∧ u.ReachesExpr env subquery param b names x c ∧
      (x.resolve env subquery).Runs c e d := by
  obtain ⟨g, cs⟩ := r
  obtain ⟨b₁, hfrom, hclauses⟩ := runs_resolveQuery h
  cases ht with
  | condition hj hk =>
    obtain ⟨c, e, d, hreaches, hrun⟩ := FromList.reaches_of_runs hj hk hfrom
    exact ⟨_, c, e, d, rfl, .condition hj hk hreaches, hrun⟩
  | clause ht =>
    have hg := resolveFrom_over hsub hu.tidy hu.scope hfrom
    have henrols := resolveFrom_enrols hsub hu.tidy hu.scope hu.named hfrom
    obtain ⟨x, c, e, d, hx, hk, hrun, hcomes⟩ :=
      ht.visits hsub hg.tidy (hu.shows.enrols henrols) hinner hclauses
    exact ⟨x, c, e, d, hx, .clause hfrom hcomes hk, hrun⟩

/-- Planning that succeeds comes to every query inside, and resolves it. -/
theorem Query.Encloses.reaches {p : QueryPlan} (hT : Query.parse env.config.scanner T = .ok q)
    (hp : (planQuery env q).Runs {} p b') (h : q.Encloses env.config.scanner outer u) :
    ∃ levels param b r d, q.Reaches env levels param u b outer ∧
      (resolveQuery env (resolveSubquery env levels) param u).Runs b r d := by
  induction h with
  | self =>
    obtain ⟨g, cs, _, b₁, _, h, -⟩ := runs_planQuery hp
    exact ⟨_, _, _, (g, cs), b₁, .self, h⟩
  | inside _ ht hinner hu ih =>
    obtain ⟨levels, param, b, r, _, hv, hrun⟩ := ih
    obtain ⟨x, c, e, _, rfl, hx, hrun⟩ :=
      ht.reaches (hv.enters hT) (resolveSubquery_nests env levels) hinner hrun
    obtain ⟨fs, d, ps, _, hreaches, hps⟩ := ExprTask.reaches_of_runs hinner hrun
    obtain ⟨sub, d', hsub, -⟩ := runs_bind.1 hps
    cases levels with
    | zero => exact absurd hsub not_runs_malformed
    | succ levels =>
      obtain ⟨u', g, cs, b₁, hu', hrun', -⟩ := runs_resolveSubquery hsub
      cases Except.ok.inj (hu'.symm.trans hu)
      exact ⟨levels, _, _, (g, cs), b₁, .inside hv hx hreaches hu, hrun'⟩

/-! ## Later aliases -/

/-- The alias that a word with points starts with. -/
def Text.owner (w : Text) : String := String.ofList (w.takeWhile (· != '.'))

theorem Text.not_mem_owner : '.' ∉ w.owner.toList := by
  rw [owner, String.toList_ofList]
  intro h
  exact absurd (List.mem_takeWhile_imp h) (by decide)

/-- The condition `k` of the join `j`, which comes after the joins `before`, holds a word with a point
whose alias the clause declares only further on. -/
structure FromList.RefersForward (s : Scanner) (f : FromList) (before : List Joined) (j : Joined)
    (k : Condition) (w : Text) (called : Bool) : Prop where
  condition : j.condition = some k
  word : .word w called ∈ Fragment.ofText s k.segment.text
  dotted : '.' ∈ w
  later : ∃ after, f.joins = before ++ j :: after ∧
    w.owner ∈ after.map (·.source.effectiveAlias)
  new : w.owner ∉ FromList.aliases ⟨f.root, before ++ [j]⟩

theorem FromList.RefersForward.declared {f : FromList}
    (h : f.RefersForward s before j k w called) : w.owner ∈ f.aliases := by
  obtain ⟨after, hj, hmem⟩ := h.later
  rw [aliases, hj, List.map_append, List.map_cons]
  exact List.mem_cons_of_mem _ (List.mem_append_right _ (List.mem_cons_of_mem _ hmem))

/-- An alias that is declared but not found is a fault of the join. -/
theorem run_resolveReference {clause : Clause} {path : String} {declared : List String}
    (hl : d.resolver.lookup? w.owner = none) (hdeclared : w.owner ∈ declared) :
    ((resolveReference clause (some ⟨path, declared⟩) w).run d).1 =
      .error (.ambiguousJoin clause path w.owner) := by
  have hcomes : Comes (throw (.ambiguousJoin clause path w.owner) : Resolve Piece) d
      (resolveReference clause (some ⟨path, declared⟩) w) d := by
    refine .next (runs_lookup?.2 ⟨hl, rfl⟩) ?_
    show Comes _ d (if declared.contains w.owner then _ else _) d
    rw [if_pos (List.contains_iff_mem.2 hdeclared)]
    exact .here
  exact hcomes.error rfl

/-- Where the condition of a join is resolved up to such a word, its alias stands for what the queries
around bind it to. -/
theorem Query.Enters.lookup?_eq (hu : u.Enters env outer b) (hsub : subquery.Nests env)
    (h : u.source.RefersForward env.config.scanner before j k w called)
    (hc : u.source.Reaches env subquery param before j b c)
    (hd : (j.task u.source.aliases param k).Reaches env subquery c fs (.word w called) d) :
    d.resolver.lookup? w.owner = b.resolver.lookup? w.owner := by
  obtain ⟨after, hj, -⟩ := h.later
  obtain ⟨htidy, henrols⟩ := hu.condition hsub hj hc
  exact (henrols.trans (.of_keeps (hd.keeps hsub htidy))).lookup?_eq hu.scope Text.not_mem_owner h.new

/-- When no query around binds the alias, the word is a fault of the condition. -/
theorem Query.Enters.forward (hu : u.Enters env outer b) (hsub : subquery.Nests env)
    (h : u.source.RefersForward env.config.scanner before j k w called) (houter : w.owner ∉ outer)
    (hc : u.source.Reaches env subquery param before j b c)
    (hd : (j.task u.source.aliases param k).Reaches env subquery c fs (.word w called) d) :
    (((j.task u.source.aliases param k).resolve env subquery).run c).1 =
      .error (.ambiguousJoin .join (".".intercalate j.source.path) w.owner) := by
  have hl : d.resolver.lookup? w.owner = none :=
    (hu.lookup?_eq hsub h hc hd).trans (hu.shows.lookup?_eq_none Text.not_mem_owner houter)
  refine hd.comes.error ?_
  rw [ExprTask.resolveFragment, Fragment.resolve, if_pos (List.contains_iff_mem.2 h.dotted)]
  exact (Comes.first .here).error (run_resolveReference hl h.declared)

namespace Sample

/-- The phones of a user with the number of a user `u`, who comes later. -/
def early : Joined where
  kind := .left
  source := ⟨["v", "phones"], some "q", none⟩
  condition := some ⟨.extending, "q.id = u.id".toList, 0⟩

def forward : FromList where
  root := ⟨["User"], some "v", none⟩
  joins := [early, ⟨.left, ⟨["v", "phones"], some "u", none⟩, none⟩]

def forwardText : Text :=
  "SELECT v.id FROM User v LEFT JOIN v.phones q WITH q.id = u.id LEFT JOIN v.phones u".toList

/-- The users, under the given name, for whom a subquery has results. -/
def nested (userAlias : String) (inner : Text) : Text :=
  ("SELECT " ++ userAlias ++ ".id FROM User " ++ userAlias ++ " WHERE EXISTS (").toList ++
    inner ++ [')']

/-- What the condition holds before the later alias. -/
def beforeForward : List Fragment :=
  [.word "q.id".toList false, .verbatim [' '], .verbatim ['='], .verbatim [' ']]

def nestedFilter (inner : Text) : Segment := ⟨"EXISTS (".toList ++ inner ++ [')'], 0⟩

end Sample

/-- When the condition of a join names an alias that its `FROM` clause declares only further on, and
no query around has declared it by then, there is no plan. Where planning comes to such a word without
a fault, its alias stands for what the queries around bind it to; if they do not, planning fails because
of this alias. -/
theorem plan_refersForward (hT : Query.parse env.config.scanner T = .ok q)
    (h : u.source.RefersForward env.config.scanner before j k w called) :
    (q.Encloses env.config.scanner outer u → w.owner ∉ outer → ∃ e, plan env T = .error e) ∧
      ∀ levels param b c fs d, q.Reaches env levels param u b outer →
        u.source.Reaches env (resolveSubquery env levels) param before j b c →
        (j.task u.source.aliases param k).Reaches env (resolveSubquery env levels) c fs
          (.word w called) d →
        d.resolver.lookup? w.owner = b.resolver.lookup? w.owner ∧
          (w.owner ∉ outer →
            plan env T = .error (.ambiguousJoin .join (".".intercalate j.source.path) w.owner)) := by
  have hplan : plan env T = ((planQuery env q).run {}).1 := by
    rw [plan, hT]
    rfl
  obtain ⟨after, hj, -⟩ := h.later
  constructor
  · intro henclosed houter
    cases hp : plan env T with
    | error e => exact ⟨e, rfl⟩
    | ok p =>
      have hrun : (planQuery env q).Runs {} p ((planQuery env q).run {}).2 :=
        Prod.ext (hplan.symm.trans hp) rfl
      obtain ⟨levels, param, b, ⟨g, cs⟩, _, hu, hrun⟩ := henclosed.reaches hT hrun
      obtain ⟨b₁, hfrom, -⟩ := runs_resolveQuery hrun
      obtain ⟨c, e, _, hc, hrun⟩ := FromList.reaches_of_runs hj h.condition hfrom
      obtain ⟨fs, d, _, _, hd, -⟩ := ExprTask.reaches_of_runs h.word hrun
      have herror := (hu.enters hT).forward (resolveSubquery_nests env levels) h houter hc hd
      exact absurd hrun (Comes.here.not_runs herror)
  · intro levels param b c fs d hu hc hd
    have hsub := resolveSubquery_nests env levels
    refine ⟨(hu.enters hT).lookup?_eq hsub h hc hd, fun houter => ?_⟩
    rw [hplan]
    refine (hu.comes.trans (.first (hc.comes hj h.condition))).error ?_
    exact (hu.enters hT).forward hsub h houter hc hd

section
open Sample

theorem Sample.refersForward : forward.RefersForward compiler.config.scanner [] early
    ⟨.extending, "q.id = u.id".toList, 0⟩ "u.id".toList false :=
  ⟨rfl, by decide +kernel, by decide, ⟨_, rfl, by decide +kernel⟩, by decide +kernel⟩

theorem Sample.parse_forwardText : ∃ u,
    Query.parse compiler.config.scanner forwardText = .ok u ∧ u.source = forward := by
  decide +kernel

theorem Sample.nested_encloses {userAlias : String} (hq : q.filter = some (nestedFilter forwardText))
    (haliases : q.source.aliases = [userAlias])
    (hu : Query.parse compiler.config.scanner forwardText = .ok u) :
    q.Encloses compiler.config.scanner [userAlias] u := by
  rw [← haliases, ← List.append_nil q.source.aliases]
  refine .inside .self (.clause (.filter hq)) ?_ hu
  decide +kernel

/-- The condition is at fault, and so it is under users `w`. -/
theorem plan_refersForward_unbound :
    plan compiler.toSurroundings forwardText = .error (.ambiguousJoin .join "v.phones" "u") ∧
      ∃ e, plan compiler.toSurroundings (nested "w" forwardText) = .error e := by
  obtain ⟨u, hu, hsource⟩ := parse_forwardText
  obtain ⟨q, hq, hfilter, haliases⟩ : ∃ q,
      Query.parse compiler.config.scanner (nested "w" forwardText) = .ok q ∧ q.filter = some (nestedFilter forwardText) ∧
        q.source.aliases = ["w"] := by decide +kernel
  have href := refersForward
  rw [← hsource] at href
  constructor
  · -- the condition is resolved up to the later alias
    obtain ⟨g, b, hroot, hstart, hgraph, hnew, r, c, hpath, ps, d, hps, -⟩ : ∃ g b,
        (resolveRoot compiler.toSurroundings forward.root).Runs {} g b ∧
        b.resolver.lookup? "v" = some 0 ∧ g.contains 0 = true ∧
        b.resolver.lookupLocal? "q" = none ∧ ∃ r c,
        (resolvePath compiler.toSurroundings .left "v" "q" g 0 "v" ["phones"]).Runs b r c ∧ ∃ ps d,
        (resolveFragments compiler.config.scanner (resolveSubquery compiler.toSurroundings 4) .join
          {} (some ⟨"v.phones", forward.aliases⟩) 0 beforeForward).Runs c ps d ∧ True := by
      decide +kernel
    have hcondition : u.source.Reaches compiler.toSurroundings
        (resolveSubquery compiler.toSurroundings 4) 0 [] early {} c := by
      rw [hsource]
      exact .intro hroot (runs_foldlM_nil.2 ⟨rfl, rfl⟩) hstart hgraph hnew hpath
    have hword : (early.task u.source.aliases 0
        ⟨.extending, "q.id = u.id".toList, 0⟩).Reaches compiler.toSurroundings
          (resolveSubquery compiler.toSurroundings 4) c beforeForward
          (.word "u.id".toList false) d := by
      rw [hsource]
      exact ⟨by decide +kernel, ⟨[], by decide +kernel⟩, ps, hps⟩
    exact ((plan_refersForward hu href).2 4 0 {} c _ d .self hcondition hword).2 List.not_mem_nil
  · have henc := nested_encloses hfilter haliases hu
    exact (plan_refersForward hq href).1 henc (by decide +kernel)

/-- Under a user `u` the condition takes the number of that user. -/
theorem plan_capturesForward : ∃ q u k p,
    Query.parse compiler.config.scanner (nested "u" forwardText) = .ok q ∧
      q.Encloses compiler.config.scanner ["u"] u ∧
      u.source.RefersForward compiler.config.scanner [] early k "u.id".toList false ∧
      plan compiler.toSurroundings (nested "u" forwardText) = .ok p := by
  obtain ⟨u, hu, hsource⟩ := parse_forwardText
  obtain ⟨q, hq, hfilter, haliases, p, hp, -⟩ : ∃ q,
      Query.parse compiler.config.scanner (nested "u" forwardText) = .ok q ∧ q.filter = some (nestedFilter forwardText) ∧
        q.source.aliases = ["u"] ∧
          ∃ p, plan compiler.toSurroundings (nested "u" forwardText) = .ok p ∧ True := by
    decide +kernel
  have href := refersForward
  rw [← hsource] at href
  exact ⟨q, u, _, p, hq, nested_encloses hfilter haliases hu, href, hp⟩

end

end ObjectQuery
