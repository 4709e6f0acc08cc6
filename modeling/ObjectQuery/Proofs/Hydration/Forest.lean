import Mathlib
import ObjectQuery.Hydration.Forest

/-! # Forests seen from above

A forest is described by what stands directly below each key path: the steps, keys and data of the
branches, without what is below them (`Branch.labelsAt`). Adding a branch changes this description
at two paths only.

* `Branch.existsAt_eq`: the paths that exist;
* `Branch.labelsAt_insert`: what adding a branch changes;
* `Branch.labelsAt_cons`: the description of what is below one branch. -/

namespace ObjectQuery
namespace Branch

/-- What a branch is, apart from what is below it. -/
abbrev Label := (Nat × List String) × Option String × List (String × Value)

/-- The label of a branch. -/
def label (b : Branch) : Label := (b.step, b.key, b.data)

/-- The branches below the end of a path. -/
def childrenAt : KeyPath → List Branch → Option (List Branch)
  | [], forest => some forest
  | s :: path, forest => (forest.find? (·.step == s)).bind fun b => childrenAt path b.children

/-- The labels of the branches below the end of a path. -/
def labelsAt (path : KeyPath) (forest : List Branch) : Option (List Label) :=
  (childrenAt path forest).map (·.map label)

variable {new b : Branch} {path ρ : KeyPath} {forest bs : List Branch} {s : Nat × List String}

theorem existsAt_eq (path : KeyPath) (forest : List Branch) :
    existsAt path forest = (labelsAt path forest).isSome := by
  induction path generalizing forest with
  | nil => rfl
  | cons s path ih =>
    rw [existsAt, labelsAt, childrenAt]
    cases forest.find? (·.step == s) with
    | none => rfl
    | some b =>
      rw [Option.bind_some]
      exact ih b.children

theorem labelsAt_nil (forest : List Branch) : labelsAt [] forest = some (forest.map label) := rfl

theorem labelsAt_cons_eq (s : Nat × List String) (path : KeyPath) (forest : List Branch) :
    labelsAt (s :: path) forest =
      (forest.find? (·.step == s)).bind fun b => labelsAt path b.children := by
  rw [labelsAt, childrenAt]
  cases forest.find? (·.step == s) <;> rfl

/-- Among branches with different steps every branch is found by its step. -/
theorem labelsAt_cons (hnodup : (forest.map step).Nodup) (hb : b ∈ forest) (path : KeyPath) :
    labelsAt (b.step :: path) forest = labelsAt path b.children := by
  have hfind : forest.find? (·.step == b.step) = some b := by
    induction forest with
    | nil => cases hb
    | cons c forest ih =>
      rw [List.map_cons, List.nodup_cons] at hnodup
      rcases List.mem_cons.1 hb with rfl | hb
      · exact List.find?_cons_of_pos (by simp)
      · have hne : c.step ≠ b.step := fun he => hnodup.1 (he ▸ List.mem_map_of_mem hb)
        rw [List.find?_cons_of_neg (by simpa using hne)]
        exact ih hnodup.2 hb
  rw [labelsAt_cons_eq, hfind, Option.bind_some]

/-! ## Adding a branch -/

/-- A branch with more below it is still found by its step. -/
theorem find?_map_children (f : Branch → List Branch) (r s : Nat × List String)
    (forest : List Branch) :
    (forest.map fun b => if b.step == r then { b with children := f b } else b).find?
        (·.step == s) =
      (forest.find? (·.step == s)).map fun b =>
        if b.step == r then { b with children := f b } else b := by
  rw [List.find?_map]
  congr 1
  refine List.find?_congr fun b _ => ?_
  simp only [Function.comp]
  split <;> rfl

theorem map_label_children (f : Branch → List Branch) (r : Nat × List String)
    (forest : List Branch) :
    (forest.map fun b => if b.step == r then { b with children := f b } else b).map label =
      forest.map label := by
  rw [List.map_map]
  refine List.map_congr_left fun b _ => ?_
  simp only [Function.comp]
  split <;> rfl

/-- A branch added below the path `ρ` is seen there, and nothing is below it. -/
theorem labelsAt_insert (hρ : childrenAt ρ forest = some bs) (hnew : new.step ∉ bs.map step)
    (hleaf : new.children = []) (path : KeyPath) :
    labelsAt path (insert new ρ forest) =
      if path = ρ then some (bs.map label ++ [new.label])
      else if path = ρ ++ [new.step] then some []
      else labelsAt path forest := by
  induction ρ generalizing forest path with
  | nil =>
    obtain rfl : forest = bs := Option.some.inj hρ
    cases path with
    | nil => simp [labelsAt, insert, childrenAt]
    | cons s path =>
      rw [labelsAt_cons_eq, insert, List.find?_append, if_neg (List.cons_ne_nil _ _)]
      cases hfind : forest.find? (·.step == s) with
      | some b =>
        have hs : b.step = s := by simpa using List.find?_some hfind
        have hne : s ≠ new.step := by
          rintro rfl
          exact hnew (hs ▸ List.mem_map_of_mem (List.mem_of_find?_eq_some hfind))
        rw [Option.some_or, if_neg (by simp [hne]), labelsAt_cons_eq, hfind]
      | none =>
        rw [Option.none_or, labelsAt_cons_eq, hfind, Option.bind_none]
        by_cases hs : new.step = s
        · rw [List.find?_cons_of_pos (by simpa using hs), Option.bind_some, hleaf]
          cases path with
          | nil => simp [hs, labelsAt, childrenAt]
          | cons r path => simp [labelsAt, childrenAt]
        · rw [List.find?_cons_of_neg (by simpa using hs), List.find?_nil, Option.bind_none,
            if_neg (by simp [Ne.symm hs])]
  | cons r ρ ih =>
    rw [childrenAt, Option.bind_eq_some_iff] at hρ
    obtain ⟨b, hb, hρ⟩ := hρ
    have hstep : b.step = r := by simpa using List.find?_some hb
    cases path with
    | nil =>
      rw [if_neg (List.cons_ne_nil _ _).symm, if_neg (by simp), labelsAt_nil, labelsAt_nil, insert,
        map_label_children]
    | cons s path =>
      rw [labelsAt_cons_eq, insert, find?_map_children, labelsAt_cons_eq]
      by_cases hs : s = r
      · subst hs
        rw [hb, Option.map_some, Option.bind_some, if_pos (by simpa using hstep), ih hρ]
        simp
      · have hother : (forest.find? (·.step == s)).map (fun b =>
            if b.step == r then { b with children := insert new ρ b.children } else b) =
            forest.find? (·.step == s) := by
          cases hfind : forest.find? (·.step == s) with
          | none => rfl
          | some c =>
            have hc : c.step = s := by simpa using List.find?_some hfind
            rw [Option.map_some, if_neg (by simpa [hc] using hs)]
        rw [hother, if_neg (by simp [hs]), if_neg (by simp [hs])]

end Branch
end ObjectQuery
