/-! # Sets of aliases

Every occurrence of a table in a query has a number. `AliasSet` is a finite set of such numbers,
kept as an ascending list, so that equal sets are equal values and a set is always listed in the
same order.

* `AliasSet.insert`, `AliasSet.union`, `AliasSet.filter`, `AliasSet.erase`, `AliasSet.ofList`;
* `AliasSet.mem_insert`, `AliasSet.mem_union`, `AliasSet.mem_filter`, `AliasSet.mem_erase`,
  `AliasSet.mem_ofList`: their members. -/

namespace ObjectQuery

/-- An occurrence of a table, numbered in order of allocation. -/
abbrev AliasId := Nat

/-- Puts a number into its place in an ascending list that may hold it already. -/
def insertAscending (a : AliasId) : List AliasId → List AliasId
  | [] => [a]
  | b :: bs => if a < b then a :: b :: bs else if a = b then b :: bs else b :: insertAscending a bs

theorem mem_insertAscending {a b : AliasId} {l : List AliasId} :
    b ∈ insertAscending a l ↔ b = a ∨ b ∈ l := by
  induction l with
  | nil => simp [insertAscending]
  | cons c l ih =>
    simp only [insertAscending]
    split
    · simp
    · split
      · simp_all
      · simp [ih, or_left_comm]

theorem pairwise_insertAscending {a : AliasId} {l : List AliasId} (h : l.Pairwise (· < ·)) :
    (insertAscending a l).Pairwise (· < ·) := by
  induction l with
  | nil => simp [insertAscending]
  | cons c l ih =>
    have hc := List.pairwise_cons.1 h
    simp only [insertAscending]
    split
    · rename_i hac
      refine List.pairwise_cons.2 ⟨fun b hb => ?_, h⟩
      rcases List.mem_cons.1 hb with rfl | hb
      · exact hac
      · exact Nat.lt_trans hac (hc.1 b hb)
    · rename_i hac
      split
      · exact h
      · rename_i hne
        refine List.pairwise_cons.2 ⟨fun b hb => ?_, ih hc.2⟩
        rcases mem_insertAscending.1 hb with rfl | hb
        · exact Nat.lt_of_le_of_ne (Nat.le_of_not_lt hac) (Ne.symm hne)
        · exact hc.1 b hb

/-- A finite set of aliases. -/
structure AliasSet where
  /-- The members, ascending. -/
  toList : List AliasId
  ascending : toList.Pairwise (· < ·) := by simp
deriving DecidableEq

namespace AliasSet

instance : EmptyCollection AliasSet := ⟨{ toList := [] }⟩

instance : Membership AliasId AliasSet := ⟨fun s a => a ∈ s.toList⟩

instance (a : AliasId) (s : AliasSet) : Decidable (a ∈ s) :=
  inferInstanceAs (Decidable (a ∈ s.toList))

/-- The set with one more member. -/
def insert (s : AliasSet) (a : AliasId) : AliasSet :=
  ⟨insertAscending a s.toList, pairwise_insertAscending s.ascending⟩

/-- The set of the members of a list. -/
def ofList (l : List AliasId) : AliasSet := l.foldl insert ∅

/-- The members of both sets. -/
def union (s t : AliasSet) : AliasSet := t.toList.foldl insert s

instance : Union AliasSet := ⟨union⟩

/-- The members that pass a test. -/
def filter (p : AliasId → Bool) (s : AliasSet) : AliasSet :=
  ⟨s.toList.filter p, s.ascending.filter p⟩

/-- The set without one of its members. -/
def erase (s : AliasSet) (a : AliasId) : AliasSet := s.filter (· != a)

/-- The number of members. -/
def size (s : AliasSet) : Nat := s.toList.length

theorem mem_def {a : AliasId} {s : AliasSet} : a ∈ s ↔ a ∈ s.toList := Iff.rfl

@[simp] theorem not_mem_empty (a : AliasId) : ¬ a ∈ (∅ : AliasSet) := by
  simp [mem_def, EmptyCollection.emptyCollection]

@[simp] theorem mem_insert {a b : AliasId} {s : AliasSet} : b ∈ s.insert a ↔ b = a ∨ b ∈ s :=
  mem_insertAscending

theorem mem_foldl_insert {b : AliasId} {l : List AliasId} {s : AliasSet} :
    b ∈ l.foldl insert s ↔ b ∈ s ∨ b ∈ l := by
  induction l generalizing s with
  | nil => simp
  | cons a l ih => simp [ih, or_assoc, or_left_comm]

@[simp] theorem mem_ofList {b : AliasId} {l : List AliasId} : b ∈ ofList l ↔ b ∈ l := by
  simp [ofList, mem_foldl_insert]

@[simp] theorem mem_union {b : AliasId} {s t : AliasSet} : b ∈ s ∪ t ↔ b ∈ s ∨ b ∈ t :=
  mem_foldl_insert

@[simp] theorem mem_filter {p : AliasId → Bool} {b : AliasId} {s : AliasSet} :
    b ∈ s.filter p ↔ b ∈ s ∧ p b = true :=
  List.mem_filter

@[simp] theorem mem_erase {a b : AliasId} {s : AliasSet} : b ∈ s.erase a ↔ b ∈ s ∧ b ≠ a := by
  simp [erase]

end AliasSet
end ObjectQuery
