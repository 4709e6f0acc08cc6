import ObjectQuery.Proofs.Query.Clauses
import ObjectQuery.Proofs.Text.Fragments

/-! # Queries inside a text

The queries between parentheses in a text, at every depth: wherever an expression is cut into
fragments, the subqueries found are among them.

* `Scanner.nestedQueries`: the queries between parentheses;
* `Scanner.AllInOrder`: the clauses come in the order of SQL, in the text and in each of them. -/

namespace ObjectQuery

variable {s : Scanner} {t u a b : Text} {opens : List Nat} {pos param : Nat}

namespace Scanner

/-- The queries between parentheses, at every depth. -/
def nestedQueries (s : Scanner) (t : Text) : List Text :=
  (s.scan t).marks.filterMap fun m =>
    if m.char == '(' then
      match Fragment.group s (t.drop (m.pos + 1)) with
      | .subquery inner => some inner
      | .verbatim _ | .placeholder | .word .. | .named _ => none
    else none

/-- At every level of nesting the clauses come in the order in which SQL writes them. -/
def AllInOrder (s : Scanner) (t : Text) : Prop :=
  s.ClausesInOrder t ∧ ∀ inner ∈ s.nestedQueries t, s.ClausesInOrder inner

instance (s : Scanner) (t : Text) : Decidable (s.AllInOrder t) :=
  inferInstanceAs (Decidable (_ ∧ _))

/-- A parenthesis outside literals is marked by a scan that gets as far as this. -/
theorem mark_mem_scanFrom {st : LiteralState} (opens : List Nat) (pos : Nat) (hp : st.Proper)
    (hq : st.quoting.run s a = .outside) (hr : (s.read ⟨st.quoting, opens.length⟩ a).isSome) :
    ∃ m ∈ (s.scanFrom st opens pos (a ++ '(' :: b)).marks, m.pos = pos + a.length ∧ m.char = '(' := by
  induction a generalizing st opens pos with
  | nil =>
    have hn : st.next s '(' = none := by
      cases hn : st.next s '(' with
      | none => rfl
      | some st' => exact absurd ((LiteralState.next_some hp hn).2.2 hq) (by decide)
    rw [List.nil_append, scanFrom_open hn]
    exact ⟨_, List.mem_cons_self, rfl, rfl⟩
  | cons c a ih =>
    have hcons {st' : LiteralState} {opens' : List Nat} (hp' : st'.Proper)
        (hn : Reading.next s ⟨st.quoting, opens.length⟩ c = some ⟨st'.quoting, opens'.length⟩) :
        ∃ m ∈ (s.scanFrom st' opens' (pos + 1) (a ++ '(' :: b)).marks,
          m.pos = pos + (c :: a).length ∧ m.char = '(' := by
      have hquot : st'.quoting = st.quoting.next s c := next_quoting hn
      rw [read_cons, hn] at hr
      obtain ⟨m, hm, hpos, hc⟩ := ih opens' (pos + 1) hp' (by rw [hquot]; exact hq) hr
      exact ⟨m, hm, by rw [hpos, List.length_cons]; omega, hc⟩
    rw [List.cons_append]
    cases s.step (a ++ '(' :: b) opens pos c hp with
    | literal hp' _ _ hn hscan =>
      rw [hscan]
      exact hcons hp' hn
    | mark hp' _ _ _ _ hn hscan =>
      rw [hscan]
      obtain ⟨m, hm, h⟩ := hcons hp' hn
      exact ⟨m, List.mem_cons_of_mem _ hm, h⟩
    | unexpected hout hc ho =>
      subst hc ho
      rw [hout] at hr
      cases hr

theorem mem_nestedQueries {inner : Text} (ht : s.Balanced (a ++ '(' :: (inner ++ ')' :: b)))
    (ha : Quoting.run s .outside a = .outside) (hi : s.Balanced inner)
    (ho : Fragment.OpensQuery (inner ++ [')'])) :
    inner ∈ s.nestedQueries (a ++ '(' :: (inner ++ ')' :: b)) := by
  obtain ⟨r, hr, -⟩ := read_append_iff.1 ht
  obtain ⟨m, hm, hpos, hc⟩ := mark_mem_scanFrom (s := s) (a := a) (b := inner ++ ')' :: b)
    [] 0 .outside ha (Option.isSome_iff_exists.2 ⟨r, hr⟩)
  refine List.mem_filterMap.2 ⟨m, hm, ?_⟩
  have hdrop : (a ++ '(' :: (inner ++ ')' :: b)).drop (m.pos + 1) = inner ++ ')' :: b := by
    rw [hpos, Nat.zero_add, List.drop_append]
    simp
  rw [hc, hdrop, Fragment.group_eq_subquery hi ho]
  rfl

end Scanner

namespace Fragment

/-- Where the subqueries of a text stand. -/
theorem exists_of_subquery_mem {inner : Text} (h : Quoting.run s .outside t = .outside)
    (hm : .subquery inner ∈ ofText s t) : ∃ a b, t = a ++ '(' :: (inner ++ ')' :: b) ∧
      Quoting.run s .outside a = .outside ∧ s.Balanced inner ∧ OpensQuery (inner ++ [')']) := by
  refine ofText_induction (P := fun t fs => .subquery inner ∈ fs →
    ∃ a b, t = a ++ '(' :: (inner ++ ')' :: b) ∧ Quoting.run s .outside a = .outside ∧
      s.Balanced inner ∧ OpensQuery (inner ++ [')'])) nofun ?_ h hm
  intro f more fs hf _ ih hm
  rcases List.mem_cons.1 hm with rfl | hm
  · exact ⟨[], more, by simp [source], rfl, hf.wellRead.1, hf.wellRead.2⟩
  · obtain ⟨a, b, rfl, ha, hi⟩ := ih hm
    refine ⟨f.source ++ a, b, by simp, ?_, hi⟩
    rw [Quoting.run_append, hf.wellRead.run_source, ha]

end Fragment

/-- The subqueries in a part of a text are among the queries inside the text. -/
theorem Scanner.Stands.mem_nestedQueries {inner : Text} (ht : s.Balanced t)
    (h : s.Stands t pos param u) (hm : .subquery inner ∈ Fragment.ofText s u) :
    inner ∈ s.nestedQueries t := by
  obtain ⟨hu, l, r, rfl, -, hl, -⟩ := h
  obtain ⟨a, b, rfl, ha, hi, ho⟩ := Fragment.exists_of_subquery_mem hu.run hm
  have he : l ++ (a ++ '(' :: (inner ++ ')' :: b)) ++ r =
      (l ++ a) ++ '(' :: (inner ++ ')' :: (b ++ r)) := by simp
  rw [he] at ht ⊢
  exact Scanner.mem_nestedQueries ht (by rw [Quoting.run_append, hl, ha]) hi ho

end ObjectQuery
