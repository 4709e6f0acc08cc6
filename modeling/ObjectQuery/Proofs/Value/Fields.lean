import Mathlib
import ObjectQuery.Value.Basic

/-! # Association lists

Pairs that are put one after the other share one entry when they share a name: the entry stays in its
place and has the last value. So all pairs are there exactly when their names are different.

* `Fields.putAll`: putting pairs one after the other;
* `Fields.get?_putAll`: the value under a name;
* `Fields.owns_putAll`: when every pair has an entry of its own. -/

namespace ObjectQuery
namespace Fields

variable {fs pairs : Fields} {name : String} {v : Value}

/-- The names of an association list, in order. -/
def names (fs : Fields) : List String := fs.map (·.1)

/-- Each of the pairs has an entry of its own, with its value. -/
def Owns (fs pairs : Fields) : Prop := (pairs.map (·.2)).Subperm (fs.map (·.2))

/-- The pairs put one after the other into an association list. -/
def putAll (fs pairs : Fields) : Fields := pairs.foldl (fun fs p => fs.put p.1 p.2) fs

theorem ofPairs_eq (pairs : Fields) : ofPairs pairs = putAll [] pairs := rfl

@[simp] theorem names_append (fs pairs : Fields) : names (fs ++ pairs) = names fs ++ names pairs :=
  List.map_append

@[simp] theorem names_cons (p : String × Value) (fs : Fields) : names (p :: fs) = p.1 :: names fs := rfl

theorem nodup_names_nil : (names []).Nodup := List.nodup_nil

/-! ## One pair -/

theorem get?_put (fs : Fields) (name k : String) (v : Value) :
    (fs.put name v).get? k = if name = k then some v else fs.get? k := by
  induction fs with
  | nil => simp [put, get?]
  | cons p fs ih =>
    obtain ⟨n, w⟩ := p
    rw [put]
    split
    · rename_i hn
      obtain rfl := eq_of_beq hn
      simp only [get?, beq_iff_eq]
      split <;> rfl
    · rename_i hn
      simp only [get?, beq_iff_eq] at hn ⊢
      rw [ih]
      split
      · rename_i hk
        rw [if_neg (hk ▸ Ne.symm hn)]
      · rfl

theorem put_of_not_mem (h : name ∉ fs.names) (v : Value) : fs.put name v = fs ++ [(name, v)] := by
  induction fs with
  | nil => rfl
  | cons p fs ih =>
    rw [names_cons, List.mem_cons, not_or] at h
    rw [put, if_neg (by simpa using Ne.symm h.1), ih h.2, List.cons_append]

theorem names_put_of_mem (h : name ∈ fs.names) (v : Value) : (fs.put name v).names = fs.names := by
  induction fs with
  | nil => cases h
  | cons p fs ih =>
    rw [put]
    split
    · rfl
    · rename_i hn
      rw [names_cons, names_cons, ih]
      exact (List.mem_cons.1 h).resolve_left fun he => hn (beq_iff_eq.2 he.symm)

theorem mem_names_put (k : String) : k ∈ (fs.put name v).names ↔ k ∈ fs.names ∨ k = name := by
  by_cases h : name ∈ fs.names
  · rw [names_put_of_mem h]
    exact ⟨.inl, fun hk => hk.elim id fun he => he ▸ h⟩
  · rw [put_of_not_mem h, names_append, List.mem_append]
    exact or_congr_right List.mem_singleton

theorem nodup_names_put (h : fs.names.Nodup) (name : String) (v : Value) :
    (fs.put name v).names.Nodup := by
  by_cases hn : name ∈ fs.names
  · rwa [names_put_of_mem hn]
  · rw [put_of_not_mem hn, names_append, List.nodup_append_comm]
    exact List.nodup_cons.2 ⟨hn, h⟩

/-! ## All pairs -/

/-- Of the pairs with one name the last counts. -/
theorem get?_putAll (fs pairs : Fields) (k : String) :
    (putAll fs pairs).get? k = get? (pairs.reverse ++ fs) k := by
  have happend (xs : Fields) {ys zs : Fields} (h : ys.get? k = zs.get? k) :
      get? (xs ++ ys) k = get? (xs ++ zs) k := by
    induction xs with
    | nil => exact h
    | cons x xs ih => rw [List.cons_append, List.cons_append, get?, get?, ih]
  induction pairs generalizing fs with
  | nil => rfl
  | cons p pairs ih =>
    have hput : (fs.put p.1 p.2).get? k = get? ([p] ++ fs) k := by
      rw [get?_put]
      simp only [List.singleton_append, get?, beq_iff_eq]
    rw [putAll, List.foldl_cons, ← putAll, ih, happend _ hput, List.reverse_cons, List.append_assoc]

theorem nodup_names_putAll (h : fs.names.Nodup) (pairs : Fields) : (putAll fs pairs).names.Nodup := by
  induction pairs generalizing fs with
  | nil => exact h
  | cons p pairs ih => exact ih (nodup_names_put h p.1 p.2)

theorem mem_names_putAll (fs pairs : Fields) (k : String) :
    k ∈ (putAll fs pairs).names ↔ k ∈ fs.names ++ pairs.names := by
  induction pairs generalizing fs with
  | nil => rw [putAll, List.foldl_nil, names, names, List.map_nil, List.append_nil]
  | cons p pairs ih =>
    rw [putAll, List.foldl_cons, ← putAll, ih, List.mem_append, mem_names_put, names_cons,
      List.mem_append, List.mem_cons, or_assoc]

/-- Pairs with names of their own are appended. -/
theorem putAll_of_nodup (h : (fs.names ++ pairs.names).Nodup) : putAll fs pairs = fs ++ pairs := by
  induction pairs generalizing fs with
  | nil => exact (List.append_nil fs).symm
  | cons p pairs ih =>
    have hp : p.1 ∉ fs.names := fun hp => List.disjoint_of_nodup_append h hp List.mem_cons_self
    have hrest : (names (fs ++ [p]) ++ names pairs).Nodup := by
      rw [names_append, List.append_assoc]
      exact h
    rw [putAll, List.foldl_cons, ← putAll, put_of_not_mem hp, ih hrest, List.append_assoc]
    rfl

/-- Everything that is put into an association list with different names has an entry of its own
exactly when no name comes twice. -/
theorem owns_putAll (h : fs.names.Nodup) (pairs : Fields) :
    (putAll fs pairs).Owns (fs ++ pairs) ↔ (fs.names ++ pairs.names).Nodup := by
  refine ⟨fun howns => ?_, fun hnodup => ?_⟩
  · -- as many entries as pairs, with different names among those of the pairs
    have hlength : (fs.names ++ pairs.names).length ≤ (putAll fs pairs).names.length := by
      have hle := List.Subperm.length_le howns
      simpa only [names, List.length_append, List.length_map] using hle
    have hnames := nodup_names_putAll h pairs
    have hsub := hnames.subperm fun k hk => (mem_names_putAll fs pairs k).1 hk
    exact (hsub.perm_of_length_le hlength).nodup_iff.1 hnames
  · rw [putAll_of_nodup hnodup]
    exact List.Subperm.refl _

/-- Every pair of a list has an entry of its own exactly when no name comes twice. -/
theorem owns_ofPairs (pairs : Fields) : (ofPairs pairs).Owns pairs ↔ pairs.names.Nodup :=
  owns_putAll nodup_names_nil pairs

theorem nodup_names_ofPairs (pairs : Fields) : (ofPairs pairs).names.Nodup :=
  nodup_names_putAll nodup_names_nil pairs

theorem mem_names_ofPairs (pairs : Fields) (k : String) : k ∈ (ofPairs pairs).names ↔ k ∈ pairs.names :=
  mem_names_putAll [] pairs k

theorem get?_ofPairs (pairs : Fields) (k : String) : (ofPairs pairs).get? k = get? pairs.reverse k := by
  rw [ofPairs_eq, get?_putAll, List.append_nil]

end Fields
end ObjectQuery
