import Mathlib
import ObjectQuery.Alias.Resolver
import ObjectQuery.Proofs.Text.Names

/-! # Names are made once

A name is a letter with a number, and a resolver counts how many names with each letter it has
made (`Resolver.Covers`); the next name differs from all of them. Hence all occurrences have
different names (`Resolver.Distinct`), and so have the occurrences that are named a second time.

* `numberedName_inj`: letter and number can be read off a name;
* `Resolver.Covers.freshName`: the next name is new;
* `Resolver.Distinct.assign`, `Resolver.Distinct.bind`: new occurrences;
* `Resolver.Logged.renameFrom`, `Resolver.Distinct.shadow`: new names for old occurrences. -/

namespace ObjectQuery

/-! ## Names -/

variable {c d : Char} {m n : Nat} {name table : String}

theorem toList_toString_inj (h : (toString m).toList = (toString n).toList) : m = n :=
  Nat.repr_injective (String.toList_injective h)

theorem numberedName_inj (h : numberedName c m = numberedName d n) : c = d ∧ m = n := by
  rw [numberedName, numberedName, String.ofList_inj, List.cons.injEq] at h
  refine ⟨h.1, ?_⟩
  have h := h.2
  split at h <;> split at h
  · omega
  · exact absurd h.symm (toString_ne_nil n)
  · exact absurd h (toString_ne_nil m)
  · exact toList_toString_inj h

theorem nameLetter_isAlpha (table : String) : (nameLetter table).isAlpha = true := by
  rw [nameLetter]
  cases hf : table.toList.find? Char.isAlpha with
  | none => rfl
  | some d =>
    rw [Option.map_some, Option.getD_some, Char.isAlpha_toLower_eq_isAlpha]
    exact List.find?_some hf

theorem numberedName_ne_empty : numberedName c n ≠ "" := by
  intro h
  have := congrArg String.toList h
  simp [numberedName] at this

theorem AliasNames.get_eq_getElem {names : AliasNames} {a : AliasId} (h : a < names.length) :
    names.get a = names[a] := by
  rw [get, List.getD_eq_getElem?_getD, List.getElem?_eq_getElem h, Option.getD_some]

theorem AliasNames.get_injective {names : AliasNames} {a b : AliasId} (h : names.Nodup)
    (ha : a < names.length) (hb : b < names.length) (he : names.get a = names.get b) : a = b := by
  rw [AliasNames.get_eq_getElem ha, AliasNames.get_eq_getElem hb] at he
  exact (h.getElem_inj_iff).1 he

theorem AliasNames.get_set {names : AliasNames} {a id : AliasId} (h : id < names.length) :
    AliasNames.get (names.set id name) a = if a = id then name else names.get a := by
  simp only [get, List.getD_eq_getElem?_getD, List.getElem?_set]
  by_cases ha : id = a
  · subst ha
    simp [h]
  · simp [ha, Ne.symm ha]

/-! ## Scopes -/

theorem AliasScope.mem_of_get? {scope : AliasScope} {id : AliasId}
    (h : scope.get? name = some id) :
    (name, id) ∈ scope := by
  induction scope with
  | nil => cases h
  | cons e scope ih =>
    obtain ⟨n, i⟩ := e
    simp only [AliasScope.get?] at h
    split at h
    · rename_i he
      cases h
      rw [beq_iff_eq.1 he]
      exact List.mem_cons_self
    · exact List.mem_cons_of_mem _ (ih h)

/-! ## New names -/

namespace Resolver

variable {r : Resolver} {used : List String} {names : AliasNames} {ids : List AliasId}
  {a id : AliasId} {userAlias : String}

/-- The names have been made: each is a letter with a number that the resolver has reached. -/
def Covers (r : Resolver) (used : List String) : Prop :=
  ∀ name ∈ used, ∃ c n, c.isAlpha = true ∧ name = numberedName c n ∧ n ≤ r.made c

/-- The next name is none of those made before. -/
theorem Covers.freshName (h : r.Covers used) (table : String) :
    (r.freshName table).1 ∉ used ∧
      (r.freshName table).2.Covers ((r.freshName table).1 :: used) := by
  constructor
  · intro hmem
    obtain ⟨c, n, -, he, hn⟩ := h _ hmem
    obtain ⟨rfl, rfl⟩ := numberedName_inj he
    exact absurd hn (by omega)
  · intro name hname
    rcases List.mem_cons.1 hname with rfl | hname
    · exact ⟨_, _, nameLetter_isAlpha table, rfl, by simp [Resolver.freshName]⟩
    · obtain ⟨c, n, hc, rfl, hn⟩ := h name hname
      refine ⟨c, n, hc, rfl, ?_⟩
      simp only [Resolver.freshName]
      split
      · rename_i hc
        subst hc
        omega
      · exact hn

/-- All occurrences have different names, and all names have been made. -/
structure Distinct (r : Resolver) : Prop where
  nodup : r.names.Nodup
  covers : r.Covers r.names

theorem Distinct.empty : Distinct {} := ⟨List.nodup_nil, nofun⟩

theorem names_assign (r : Resolver) (table : String) :
    (r.assign table).2.names = r.names ++ [(r.freshName table).1] := by
  simp [assign, names, Resolver.freshName]

theorem Distinct.assign (h : r.Distinct) (table : String) : (r.assign table).2.Distinct := by
  obtain ⟨hnew, hcovers⟩ := h.covers.freshName table
  constructor
  · rw [names_assign, List.nodup_append]
    refine ⟨h.nodup, List.nodup_singleton _, fun a ha b hb => ?_⟩
    rw [List.mem_singleton.1 hb]
    exact fun he => hnew (he ▸ ha)
  · rw [names_assign]
    intro name hname
    exact hcovers name ((List.mem_append.1 hname).elim (List.mem_cons_of_mem _) fun hname =>
      List.mem_singleton.1 hname ▸ List.mem_cons_self)

theorem Distinct.bind (h : r.Distinct) (userAlias table : String) :
    (r.bind userAlias table).2.Distinct := by
  simp only [Resolver.bind]
  split
  · exact h
  · obtain ⟨hnodup, hcovers⟩ := h.assign table
    exact ⟨hnodup, hcovers⟩

theorem Distinct.get_ne_empty (h : r.Distinct) (ha : a < r.occurrences.length) :
    r.names.get a ≠ "" := by
  have hlt : a < r.names.length := by simpa [names] using ha
  obtain ⟨c, n, -, he, -⟩ := h.covers _ (List.getElem_mem hlt)
  rw [AliasNames.get_eq_getElem hlt, he]
  exact numberedName_ne_empty

/-! ## Occurrences and aliases -/

theorem length_assign (r : Resolver) (table : String) :
    (r.assign table).2.occurrences.length = r.occurrences.length + 1 :=
  List.length_append

theorem bind_known (h : r.lookupLocal? userAlias = some id) : r.bind userAlias table = (id, r) := by
  simp only [bind, h]

theorem bind_new (h : r.lookupLocal? userAlias = none) : r.bind userAlias table =
    (r.occurrences.length, { (r.assign table).2 with
      scope := (userAlias, r.occurrences.length) :: r.scope }) := by
  simp only [bind, h]
  rfl

/-! ## New names for old occurrences -/

/-- The names that are made for the listed occurrences, one for each that exists. -/
def freshNames (r : Resolver) : List AliasId → List String
  | [] => []
  | id :: ids =>
    match r.occurrences[id]? with
    | none => freshNames r ids
    | some occurrence =>
      let (name, r) := r.freshName occurrence.table
      name :: freshNames r ids

theorem occurrences_freshName (r : Resolver) (table : String) :
    (r.freshName table).2.occurrences = r.occurrences := rfl

section

variable {occurrence : Occurrence}

theorem renameFrom_unknown (h : r.occurrences[id]? = none) :
    r.renameFrom names (id :: ids) = r.renameFrom names ids := by
  rw [renameFrom, h]

theorem renameFrom_known (h : r.occurrences[id]? = some occurrence) :
    r.renameFrom names (id :: ids) = (r.freshName occurrence.table).2.renameFrom
      (names.set id (r.freshName occurrence.table).1) ids := by
  rw [renameFrom, h]

theorem freshNames_unknown (h : r.occurrences[id]? = none) :
    r.freshNames (id :: ids) = r.freshNames ids := by
  rw [freshNames, h]

theorem freshNames_known (h : r.occurrences[id]? = some occurrence) :
    r.freshNames (id :: ids) = (r.freshName occurrence.table).1 ::
      (r.freshName occurrence.table).2.freshNames ids := by
  rw [freshNames, h]

end

/-- The log lists the names that a resolver made, each of them once, and the occurrences took
their names from it. -/
structure Logged (r : Resolver) (log : List String) : Prop where
  nodup : log.Nodup
  covers : r.Covers log
  names : r.names.Sublist log

variable {log new new' : List String} {names' names'' : AliasNames}

theorem Distinct.logged (h : r.Distinct) : r.Logged r.names := ⟨h.nodup, h.covers, .refl _⟩

/-- A name that is made goes to the end of the log. -/
theorem Logged.freshName (h : r.Logged log) (table : String) :
    (r.freshName table).2.Logged (log ++ [(r.freshName table).1]) := by
  obtain ⟨hnew, hcovers⟩ := h.covers.freshName table
  refine ⟨?_, ?_, h.names.trans (List.sublist_append_left _ _)⟩
  · apply h.nodup.append (List.nodup_singleton _)
    intro name hname hlast
    exact hnew (List.mem_singleton.1 hlast ▸ hname)
  · intro name hname
    apply hcovers
    exact List.mem_cons.2 ((List.mem_append.1 hname).symm.imp_left List.mem_singleton.1)

theorem Logged.renameFrom (h : r.Logged log) (names : AliasNames) (ids : List AliasId) :
    (r.renameFrom names ids).2.Logged (log ++ r.freshNames ids) := by
  induction ids generalizing r log names with
  | nil => simpa [Resolver.renameFrom, freshNames] using h
  | cons id ids ih =>
    cases hid : r.occurrences[id]? with
    | none =>
      rw [renameFrom_unknown hid, freshNames_unknown hid]
      exact ih h names
    | some occurrence =>
      rw [renameFrom_known hid, freshNames_known hid, List.append_cons]
      exact ih (h.freshName occurrence.table) _

/-- The second table gives the listed occurrences that it has names of `new`, and agrees with the
first on the others. -/
structure Takes (new : List String) (ids : List AliasId) (names names' : AliasNames) : Prop where
  length_eq : names'.length = names.length
  given : ∀ a ∈ ids, a < names.length → names'.get a ∈ new
  same : ∀ a, ¬ (a ∈ ids ∧ a < names.length) → names'.get a = names.get a

theorem Takes.set (names : AliasNames) (id : AliasId) (name : String) :
    Takes [name] [id] names (names.set id name) := by
  refine ⟨List.length_set, ?_, ?_⟩
  · intro a ha hlt
    obtain rfl := List.mem_singleton.1 ha
    rw [AliasNames.get_set hlt, if_pos rfl]
    exact List.mem_cons_self
  · intro a ha
    by_cases hid : id < names.length
    · rw [AliasNames.get_set hid, if_neg]
      rintro rfl
      exact ha ⟨List.mem_cons_self, hid⟩
    · rw [List.set_eq_of_length_le (Nat.le_of_not_lt hid)]

theorem Takes.trans (h : Takes new [id] names names') (h' : Takes new' ids names' names'') :
    Takes (new ++ new') (id :: ids) names names'' := by
  have hlen := h.length_eq
  refine ⟨h'.length_eq.trans hlen, ?_, ?_⟩
  · intro a ha hlt
    by_cases hids : a ∈ ids
    · exact List.mem_append_right _ (h'.given a hids (hlen ▸ hlt))
    · rw [h'.same a fun hmem => hids hmem.1]
      have hid : a ∈ [id] := List.mem_singleton.2 ((List.mem_cons.1 ha).resolve_right hids)
      exact List.mem_append_left _ (h.given a hid hlt)
  · intro a ha
    rw [h'.same a fun hmem => ha ⟨List.mem_cons_of_mem _ hmem.1, hlen ▸ hmem.2⟩]
    apply h.same
    exact fun hmem => ha ⟨List.mem_cons.2 (.inl (List.mem_singleton.1 hmem.1)), hmem.2⟩

theorem takes_renameFrom (hlen : names.length = r.occurrences.length) :
    Takes (r.freshNames ids) ids names (r.renameFrom names ids).1 := by
  induction ids generalizing r names with
  | nil => exact ⟨rfl, nofun, fun _ _ => rfl⟩
  | cons id ids ih =>
    cases hid : r.occurrences[id]? with
    | none =>
      rw [renameFrom_unknown hid, freshNames_unknown hid]
      have hid : names.length ≤ id := hlen ▸ List.getElem?_eq_none_iff.1 hid
      obtain ⟨h1, h2, h3⟩ := ih hlen
      refine ⟨h1, fun a ha hlt => h2 a ?_ hlt, fun a ha => h3 a fun hmem => ha ?_⟩
      · exact (List.mem_cons.1 ha).resolve_left fun he => Nat.not_lt.2 hid (he ▸ hlt)
      · exact ⟨List.mem_cons_of_mem _ hmem.1, hmem.2⟩
    | some occurrence =>
      rw [renameFrom_known hid, freshNames_known hid]
      apply (Takes.set names id _).trans
      apply ih
      rw [List.length_set, hlen, occurrences_freshName]

/-- A table of logged names stays free of repetitions. -/
theorem Logged.nodup_renameFrom (h : r.Logged log) (hnodup : names.Nodup) (hsub : names ⊆ log) :
    (r.renameFrom names ids).1.Nodup := by
  induction ids generalizing r log names with
  | nil => exact hnodup
  | cons id ids ih =>
    cases hid : r.occurrences[id]? with
    | none =>
      rw [renameFrom_unknown hid]
      exact ih h hnodup hsub
    | some occurrence =>
      rw [renameFrom_known hid]
      obtain ⟨hnew, -⟩ := h.covers.freshName occurrence.table
      apply ih (h.freshName occurrence.table)
      · exact hnodup.set fun hmem => hnew (hsub hmem)
      · intro name hname
        rcases List.mem_or_eq_of_mem_set hname with hname | rfl
        · exact List.mem_append_left _ (hsub hname)
        · exact List.mem_append_right _ List.mem_cons_self

theorem Logged.nodup_shadow (h : r.Logged log) (ids : List AliasId) : (r.shadow ids).1.Nodup :=
  h.nodup_renameFrom (h.nodup.sublist h.names) h.names.subset

theorem takes_shadow (r : Resolver) (ids : List AliasId) :
    Takes (r.freshNames ids) ids r.names (r.shadow ids).1 :=
  takes_renameFrom (List.length_map _)

/-- The second table gives the listed occurrences different names that are none of `used`, and
agrees with the first on the others. -/
structure Renames (used : List String) (ids : List AliasId) (names names' : AliasNames) : Prop where
  length_eq : names'.length = names.length
  same : ∀ a ∉ ids, names'.get a = names.get a
  new : ∀ a ∈ ids, names'.get a ∉ used
  named : ∀ a ∈ ids, names'.get a ≠ ""
  nodup : (ids.map names'.get).Nodup

/-- The listed occurrences get names of their own, which no occurrence has. -/
theorem Distinct.shadow (h : r.Distinct) (hids : ids.Nodup)
    (hlt : ∀ a ∈ ids, a < r.occurrences.length) :
    Renames r.names ids r.names (r.shadow ids).1 := by
  have hlog := h.logged.renameFrom r.names ids
  have htakes := r.takes_shadow ids
  have hlt : ∀ a ∈ ids, a < r.names.length := by simpa [names] using hlt
  refine ⟨htakes.length_eq, fun a ha => htakes.same a fun hmem => ha hmem.1, ?_, ?_, ?_⟩
  · intro a ha hused
    exact List.disjoint_of_nodup_append hlog.nodup hused (htakes.given a ha (hlt a ha))
  · intro a ha he
    have hmem := List.mem_append_right r.names (htakes.given a ha (hlt a ha))
    obtain ⟨c, n, -, hname, -⟩ := hlog.covers _ hmem
    exact numberedName_ne_empty (hname.symm.trans he)
  · apply List.Nodup.map_on _ hids
    intro a ha a' ha' he
    apply AliasNames.get_injective (h.logged.nodup_shadow ids) _ _ he
    · exact htakes.length_eq ▸ hlt a ha
    · exact htakes.length_eq ▸ hlt a' ha'

end Resolver
end ObjectQuery
