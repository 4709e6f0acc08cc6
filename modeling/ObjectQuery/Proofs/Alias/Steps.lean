import ObjectQuery.Proofs.Alias.Names

/-! # A resolver in use

A resolver is used in steps, in any order: new occurrences with and without an alias, questions
about an alias, scopes entered and left, and second names for some occurrences. The names that all
the steps of a run make are different (`Resolver.Logged.run`), occurrences are numbered in order
and keep their names (`Resolver.idsMade_run`, `Resolver.names_run`), and what happens inside a
scope is forgotten when the scope is left (`Resolver.Balanced.scopes_run`).

* `Resolver.Step`, `Resolver.run`: the steps, and a run of them;
* `Resolver.run_aliases`: what holds of every run from the start. -/

namespace ObjectQuery
namespace Resolver

variable {r : Resolver} {log : List String} {ids : List AliasId} {id : AliasId}
  {userAlias table : String}

/-! ## Steps -/

/-- One use of a resolver. -/
inductive Step where
  | assign (table : String)
  | bind (userAlias table : String)
  | lookup (userAlias : String)
  | pushScope
  | popScope
  | shadow (ids : List AliasId)
deriving DecidableEq

/-- The resolver after a step. -/
def Step.next (r : Resolver) : Step → Resolver
  | .assign table => (r.assign table).2
  | .bind userAlias table => (r.bind userAlias table).2
  | .lookup _ => r
  | .pushScope => r.pushScope
  | .popScope => r.popScope
  | .shadow ids => (r.shadow ids).2

/-- The names that a step makes. -/
def Step.namesMade (r : Resolver) : Step → List String
  | .assign table => [(r.freshName table).1]
  | .bind userAlias table =>
    if r.lookupLocal? userAlias = none then [(r.freshName table).1] else []
  | .shadow ids => r.freshNames ids
  | .lookup _ | .pushScope | .popScope => []

/-- The numbers of the occurrences that a step adds. -/
def Step.idsMade (r : Resolver) : Step → List AliasId
  | .assign table => [(r.assign table).1]
  | .bind userAlias table =>
    if r.lookupLocal? userAlias = none then [(r.bind userAlias table).1] else []
  | .lookup _ | .pushScope | .popScope | .shadow _ => []

/-- The resolver after some steps. -/
def run (r : Resolver) : List Step → Resolver
  | [] => r
  | step :: steps => run (step.next r) steps

/-- The names that the steps of a run make, in order. -/
def namesMade (r : Resolver) : List Step → List String
  | [] => []
  | step :: steps => step.namesMade r ++ namesMade (step.next r) steps

/-- The numbers of the occurrences that the steps of a run add, in order. -/
def idsMade (r : Resolver) : List Step → List AliasId
  | [] => []
  | step :: steps => step.idsMade r ++ idsMade (step.next r) steps

theorem run_append (r : Resolver) (steps steps' : List Step) :
    r.run (steps ++ steps') = (r.run steps).run steps' := by
  induction steps generalizing r with
  | nil => rfl
  | cons step steps ih => exact ih (step.next r)

theorem namesMade_append (r : Resolver) (steps steps' : List Step) :
    r.namesMade (steps ++ steps') = r.namesMade steps ++ (r.run steps).namesMade steps' := by
  induction steps generalizing r with
  | nil => rfl
  | cons step steps ih =>
    rw [List.cons_append, namesMade, namesMade, ih, List.append_assoc]
    rfl

/-! ## Names and numbers -/

theorem occurrences_renameFrom (r : Resolver) (names : AliasNames) (ids : List AliasId) :
    (r.renameFrom names ids).2.occurrences = r.occurrences := by
  induction ids generalizing r names with
  | nil => rfl
  | cons id ids ih =>
    cases hid : r.occurrences[id]? with
    | none => rw [renameFrom_unknown hid, ih]
    | some occurrence => rw [renameFrom_known hid, ih, occurrences_freshName]

/-- A new occurrence takes its name from the log. -/
theorem Logged.assign (h : r.Logged log) (table : String) :
    (r.assign table).2.Logged (log ++ [(r.freshName table).1]) := by
  obtain ⟨hnodup, hcovers, -⟩ := h.freshName table
  refine ⟨hnodup, hcovers, ?_⟩
  rw [names_assign]
  exact h.names.append (.refl _)

theorem Logged.next (h : r.Logged log) (step : Step) :
    (step.next r).Logged (log ++ step.namesMade r) := by
  cases step with
  | assign table => exact h.assign table
  | bind userAlias table =>
    rw [Step.next, Step.namesMade]
    cases hl : r.lookupLocal? userAlias with
    | none =>
      rw [bind_new hl, if_pos rfl]
      obtain ⟨hnodup, hcovers, hnames⟩ := h.assign table
      exact ⟨hnodup, hcovers, hnames⟩
    | some id =>
      rw [bind_known hl, if_neg (Option.some_ne_none id), List.append_nil]
      exact h
  | lookup userAlias => rwa [Step.next, Step.namesMade, List.append_nil]
  | pushScope =>
    rw [Step.namesMade, List.append_nil]
    exact ⟨h.nodup, h.covers, h.names⟩
  | popScope =>
    rw [Step.namesMade, List.append_nil, Step.next, Resolver.popScope]
    split
    · exact h
    · exact ⟨h.nodup, h.covers, h.names⟩
  | shadow ids => exact h.renameFrom r.names ids

/-- A run makes no name twice, and none that was made before. -/
theorem Logged.run (h : r.Logged log) (steps : List Step) :
    (r.run steps).Logged (log ++ r.namesMade steps) := by
  induction steps generalizing r log with
  | nil => simpa [Resolver.run, namesMade] using h
  | cons step steps ih =>
    rw [Resolver.run, namesMade, ← List.append_assoc]
    exact ih (h.next step)

theorem logged_run (steps : List Step) : (({} : Resolver).run steps).Logged (namesMade {} steps) :=
  Distinct.empty.logged.run steps

/-- A step keeps the occurrences, and the numbers of those it adds are the next ones. -/
theorem Step.occurrences (r : Resolver) (step : Step) : r.occurrences <+: (step.next r).occurrences ∧
    List.range r.occurrences.length ++ step.idsMade r =
      List.range (step.next r).occurrences.length := by
  cases step with
  | assign table =>
    refine ⟨List.prefix_append _ _, ?_⟩
    rw [Step.next, length_assign, List.range_succ]
    rfl
  | bind userAlias table =>
    rw [Step.next, Step.idsMade]
    cases hl : r.lookupLocal? userAlias with
    | none =>
      rw [bind_new hl, if_pos rfl]
      refine ⟨List.prefix_append _ _, ?_⟩
      rw [length_assign, List.range_succ]
    | some id =>
      rw [bind_known hl, if_neg (Option.some_ne_none id), List.append_nil]
      exact ⟨List.prefix_rfl, rfl⟩
  | lookup userAlias => exact ⟨List.prefix_rfl, List.append_nil _⟩
  | pushScope => exact ⟨List.prefix_rfl, List.append_nil _⟩
  | popScope =>
    rw [Step.idsMade, List.append_nil, Step.next, Resolver.popScope]
    split
    · exact ⟨List.prefix_rfl, rfl⟩
    · exact ⟨List.prefix_rfl, rfl⟩
  | shadow ids =>
    rw [Step.idsMade, List.append_nil, Step.next, Resolver.shadow, occurrences_renameFrom]
    exact ⟨List.prefix_rfl, rfl⟩

theorem occurrences_run (r : Resolver) (steps : List Step) :
    r.occurrences <+: (r.run steps).occurrences := by
  induction steps generalizing r with
  | nil => exact List.prefix_rfl
  | cons step steps ih => exact (step.occurrences r).1.trans (ih (step.next r))

theorem idsMade_run (r : Resolver) (steps : List Step) :
    List.range r.occurrences.length ++ r.idsMade steps =
      List.range (r.run steps).occurrences.length := by
  induction steps generalizing r with
  | nil => exact List.append_nil _
  | cons step steps ih =>
    rw [idsMade, ← List.append_assoc, (step.occurrences r).2]
    exact ih (step.next r)

theorem names_run (r : Resolver) (steps : List Step) : r.names <+: (r.run steps).names :=
  (r.occurrences_run steps).map _

theorem name_run (steps : List Step) (h : id < r.names.length) :
    (r.run steps).name id = r.name id := by
  have hpre := r.names_run steps
  rw [name, name, AliasNames.get_eq_getElem h,
    AliasNames.get_eq_getElem (h.trans_le hpre.length_le), hpre.getElem h]

/-! ## Scopes -/

/-- All aliases stand for occurrences. -/
def Bound (r : Resolver) : Prop :=
  ∀ scope ∈ r.scope :: r.outer, ∀ e ∈ scope, e.2 < r.occurrences.length

/-- The steps enter and leave scopes in pairs, and leave none that they did not enter. -/
inductive Balanced : List Step → Prop where
  | nil : Balanced []
  | step {step : Step} {steps : List Step} (hpush : step ≠ .pushScope) (hpop : step ≠ .popScope)
      (h : Balanced steps) : Balanced (step :: steps)
  | nested {block steps : List Step} (hblock : Balanced block) (h : Balanced steps) :
      Balanced (.pushScope :: (block ++ .popScope :: steps))

theorem scopes_renameFrom (r : Resolver) (names : AliasNames) (ids : List AliasId) :
    (r.renameFrom names ids).2.scope = r.scope ∧ (r.renameFrom names ids).2.outer = r.outer := by
  induction ids generalizing r names with
  | nil => exact ⟨rfl, rfl⟩
  | cons id ids ih =>
    cases hid : r.occurrences[id]? with
    | none =>
      rw [renameFrom_unknown hid]
      exact ih r names
    | some occurrence =>
      rw [renameFrom_known hid]
      exact ih (r.freshName occurrence.table).2 _

/-- What a scope binds after a step was bound before, or it is the occurrence of a new alias. -/
theorem Step.mem_scopes (step : Step) {scope : AliasScope} {e : String × AliasId}
    (hscope : scope ∈ (step.next r).scope :: (step.next r).outer) (he : e ∈ scope) :
    (∃ scope' ∈ r.scope :: r.outer, e ∈ scope') ∨ e.2 ∈ step.idsMade r := by
  cases step with
  | assign table => exact .inl ⟨scope, hscope, he⟩
  | bind userAlias table =>
    rw [Step.next] at hscope
    rw [Step.idsMade]
    cases hl : r.lookupLocal? userAlias with
    | some id =>
      rw [bind_known hl] at hscope
      exact .inl ⟨scope, hscope, he⟩
    | none =>
      rw [bind_new hl] at hscope ⊢
      rcases List.mem_cons.1 hscope with rfl | hscope
      · rcases List.mem_cons.1 he with rfl | he
        · exact .inr List.mem_cons_self
        · exact .inl ⟨_, List.mem_cons_self, he⟩
      · exact .inl ⟨scope, List.mem_cons_of_mem _ hscope, he⟩
  | lookup userAlias => exact .inl ⟨scope, hscope, he⟩
  | pushScope =>
    rcases List.mem_cons.1 hscope with rfl | hscope
    · cases he
    · exact .inl ⟨scope, hscope, he⟩
  | popScope =>
    rw [Step.next, Resolver.popScope] at hscope
    split at hscope
    · exact .inl ⟨scope, hscope, he⟩
    · rename_i houter
      exact .inl ⟨scope, houter ▸ List.mem_cons_of_mem _ hscope, he⟩
  | shadow ids =>
    obtain ⟨h1, h2⟩ := r.scopes_renameFrom r.names ids
    rw [Step.next, Resolver.shadow, h1, h2] at hscope
    exact .inl ⟨scope, hscope, he⟩

theorem Bound.next (h : r.Bound) (step : Step) : (step.next r).Bound := by
  obtain ⟨hpre, hids⟩ := step.occurrences r
  intro scope hscope e he
  rcases step.mem_scopes hscope he with ⟨scope', hscope', he'⟩ | hmem
  · exact (h scope' hscope' e he').trans_le hpre.length_le
  · apply List.mem_range.1
    rw [← hids]
    exact List.mem_append_right _ hmem

theorem Bound.run (h : r.Bound) (steps : List Step) : (r.run steps).Bound := by
  induction steps generalizing r with
  | nil => exact h
  | cons step steps ih => exact ih (h.next step)

theorem bound_run (steps : List Step) : (({} : Resolver).run steps).Bound := by
  apply Bound.run
  intro scope hscope e he
  obtain rfl := List.mem_singleton.1 hscope
  cases he

/-- An alias stands for what the innermost scope that has it binds it to. -/
theorem lookup?_eq_some : r.lookup? userAlias = some id ↔
    ∃ inner scope outer, r.scope :: r.outer = inner ++ scope :: outer ∧
      (∀ s ∈ inner, s.get? userAlias = none) ∧ scope.get? userAlias = some id := by
  rw [lookup?, List.findSome?_eq_some_iff]
  simp only [and_comm]

theorem Bound.lookup (h : r.Bound) (hl : r.lookup? userAlias = some id) :
    id < r.occurrences.length := by
  obtain ⟨inner, scope, outer, heq, -, hget⟩ := lookup?_eq_some.1 hl
  have hscope : scope ∈ r.scope :: r.outer := heq ▸ List.mem_append_right _ List.mem_cons_self
  exact h scope hscope _ (AliasScope.mem_of_get? hget)

theorem lookup?_congr {r' : Resolver} (hscope : r'.scope = r.scope) (houter : r'.outer = r.outer) :
    r'.lookup? userAlias = r.lookup? userAlias := by
  rw [lookup?, lookup?, hscope, houter]

/-- Apart from the two that enter and leave scopes, steps reach the innermost scope alone. -/
theorem Step.outer_next {step : Step} (hpush : step ≠ .pushScope) (hpop : step ≠ .popScope) :
    (step.next r).outer = r.outer := by
  cases step with
  | assign table => rfl
  | bind userAlias table =>
    rw [Step.next]
    cases hl : r.lookupLocal? userAlias with
    | none => rw [bind_new hl]; rfl
    | some id => rw [bind_known hl]
  | lookup userAlias => rfl
  | pushScope => exact absurd rfl hpush
  | popScope => exact absurd rfl hpop
  | shadow ids => exact (r.scopes_renameFrom r.names ids).2

/-- Leaving a scope restores the scopes that were there when it was entered. -/
theorem scopes_pop_run {block : List Step} (h : ((r.pushScope).run block).outer = r.scope :: r.outer) :
    ((r.pushScope).run block).popScope.scope = r.scope ∧
      ((r.pushScope).run block).popScope.outer = r.outer := by
  rw [Resolver.popScope, h]
  exact ⟨rfl, rfl⟩

theorem Balanced.outer_run {steps : List Step} (h : Balanced steps) (r : Resolver) :
    (r.run steps).outer = r.outer := by
  induction h generalizing r with
  | nil => rfl
  | step hpush hpop _ ih =>
    rw [Resolver.run, ih]
    exact Step.outer_next hpush hpop
  | @nested block steps _ _ ihblock ih =>
    rw [Resolver.run, run_append, Resolver.run, ih]
    exact (scopes_pop_run (ihblock r.pushScope)).2

theorem Balanced.scopes_run {block : List Step} (h : Balanced block) (r : Resolver) :
    (r.run (.pushScope :: (block ++ [.popScope]))).scope = r.scope ∧
      (r.run (.pushScope :: (block ++ [.popScope]))).outer = r.outer := by
  rw [Resolver.run, run_append]
  exact scopes_pop_run (h.outer_run r.pushScope)

/-! ## Every run -/

theorem length_names (r : Resolver) : r.names.length = r.occurrences.length := List.length_map _

/-- Names that are made for a second table are not made before or after it. -/
theorem not_mem_namesMade {before after : List Step} {name : String}
    (h : name ∈ (run {} before).freshNames ids) : name ∉ namesMade {} before ∧
      name ∉ namesMade (run {} (before ++ [.shadow ids])) after := by
  have hnodup := (logged_run (before ++ .shadow ids :: after)).nodup
  rw [namesMade_append, namesMade] at hnodup
  constructor
  · intro hbefore
    exact List.disjoint_of_nodup_append hnodup hbefore (List.mem_append_left _ h)
  · intro hafter
    rw [run_append] at hafter
    exact List.disjoint_of_nodup_append hnodup.of_append_right h hafter

/-- Binding an alias finds what the innermost scope has, or else takes the next number. -/
theorem bind_spec (r : Resolver) (userAlias table : String) :
    (∀ id < r.names.length,
      (r.bind userAlias table).1 = id ↔ r.scope.get? userAlias = some id) ∧
    (r.scope.get? userAlias = none → (r.bind userAlias table).1 = r.names.length) ∧
    (r.bind userAlias table).2.lookup? userAlias = some (r.bind userAlias table).1 := by
  rw [length_names]
  cases hl : r.lookupLocal? userAlias with
  | some bound =>
    have hget : r.scope.get? userAlias = some bound := hl
    rw [bind_known hl, hget]
    refine ⟨fun id _ => by rw [Option.some.injEq], nofun, ?_⟩
    exact lookup?_eq_some.2 ⟨[], r.scope, r.outer, rfl, nofun, hget⟩
  | none =>
    have hget : r.scope.get? userAlias = none := hl
    rw [bind_new hl, hget]
    refine ⟨fun id hid => ⟨fun he => ?_, nofun⟩, fun _ => rfl, ?_⟩
    · exact absurd (he ▸ hid) (Nat.lt_irrefl _)
    · refine lookup?_eq_some.2 ⟨[], _, r.outer, rfl, nofun, ?_⟩
      rw [AliasScope.get?, if_pos (beq_self_eq_true userAlias)]

/-- **Names, numbers and aliases of every run.** All names that the steps of a run make are
different, those of occurrences and those of second tables alike. The numbers are given out in
order, and a number keeps its name. An alias stands for what the innermost scope that has it says,
a bound alias is not bound again in its scope, and a scope that is left leaves nothing behind. -/
theorem run_aliases (steps : List Step) :
    let r := run {} steps
    -- the names, and those of the occurrences among them
    (namesMade {} steps).Nodup ∧ r.names.Sublist (namesMade {} steps) ∧ r.names.Nodup ∧
    -- the second tables of names
    (∀ before ids after, steps = before ++ .shadow ids :: after →
      let names := (run {} before).names
      let shadow := ((run {} before).shadow ids).1
      shadow.Nodup ∧ shadow.length = names.length ∧
        ∀ id, if id ∈ ids ∧ id < names.length
          then shadow.get id ∈ Step.namesMade (run {} before) (.shadow ids) ∧
            shadow.get id ∉ namesMade {} before ∧
            shadow.get id ∉ namesMade (run {} (before ++ [.shadow ids])) after
          else shadow.get id = names.get id) ∧
    -- the numbers
    idsMade {} steps = List.range r.names.length ∧
    (∀ before after, steps = before ++ after →
      ∀ id < (run {} before).names.length, r.name id = (run {} before).name id) ∧
    -- the aliases
    (∀ userAlias id, r.lookup? userAlias = some id ↔
      ∃ inner scope outer, r.scope :: r.outer = inner ++ scope :: outer ∧
        (∀ s ∈ inner, s.get? userAlias = none) ∧ scope.get? userAlias = some id) ∧
    (∀ userAlias id, r.lookup? userAlias = some id → id < r.names.length) ∧
    (∀ userAlias table,
      (∀ id < r.names.length,
        (r.bind userAlias table).1 = id ↔ r.scope.get? userAlias = some id) ∧
      (r.scope.get? userAlias = none → (r.bind userAlias table).1 = r.names.length) ∧
      (r.bind userAlias table).2.lookup? userAlias = some (r.bind userAlias table).1) ∧
    -- the scopes that are left
    (∀ block, Balanced block → ∀ userAlias,
      (run {} (steps ++ .pushScope :: (block ++ [.popScope]))).lookup? userAlias =
        r.lookup? userAlias) := by
  intro r
  have hlog := logged_run steps
  refine ⟨hlog.nodup, hlog.names, hlog.nodup.sublist hlog.names, ?_, ?_, ?_,
    fun _ _ => lookup?_eq_some, ?_, bind_spec r, ?_⟩
  · rintro before ids after rfl
    have htakes := (run {} before).takes_shadow ids
    refine ⟨(logged_run before).nodup_shadow ids, htakes.length_eq, fun id => ?_⟩
    split
    · rename_i hid
      have hmem := htakes.given id hid.1 hid.2
      exact ⟨hmem, not_mem_namesMade hmem⟩
    · rename_i hid
      exact htakes.same id hid
  · rw [length_names]
    exact idsMade_run {} steps
  · rintro before after rfl id hid
    simp only [r, run_append]
    exact name_run after hid
  · intro userAlias id hl
    rw [length_names]
    exact (bound_run steps).lookup hl
  · intro block hblock userAlias
    rw [run_append]
    obtain ⟨hscope, houter⟩ := hblock.scopes_run r
    exact lookup?_congr hscope houter

-- a second name is used up even where a later one takes its place
example : namesMade {} [.bind "u" "User", .pushScope, .bind "u" "phone", .assign "unit",
    .shadow [0, 7, 0], .popScope, .bind "u" "User", .assign "42"] =
    ["u", "p", "u2", "u3", "u4", "t"] := by decide +kernel

theorem run_aliases_shadowed :
    let before : List Step := [.bind "u" "User", .pushScope, .bind "u" "phone"]
    let after : List Step := [.popScope, .assign "unit"]
    ((run {} before).shadow [0, 7, 0]).1 = ["u3", "p"] ∧
      "u3" ∉ namesMade (run {} (before ++ [.shadow [0, 7, 0]])) after := by
  intro before after
  have htable : ((run {} before).shadow [0, 7, 0]).1 = ["u3", "p"] := by decide +kernel
  have hshadow := (run_aliases (before ++ .shadow [0, 7, 0] :: after)).2.2.2.1 before _ after rfl
  have h0 := hshadow.2.2 0
  rw [if_pos (by decide +kernel), htable] at h0
  exact ⟨htable, h0.2.2⟩

end Resolver
end ObjectQuery
