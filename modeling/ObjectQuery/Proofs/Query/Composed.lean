import ObjectQuery.Proofs.Query.Faults
import ObjectQuery.Proofs.Query.Glued

/-! # Texts that are composed of clauses

Clauses that are written one after the other, each after its name, are read one after the other, when
no text of a clause has a keyword.

* `composed`: the text of some clauses, `composedSections`: the segments that they become;
* `exists_composed`: the cells of such a text;
* `Query.parse_composed`: reading it is reading the segments;
* `readDistinct_trim`, `readDistinct_trim_distinct`, `readCount_toString`: the clauses that are not
  kept as they are. -/

namespace ObjectQuery

open Scanner (Blank Balanced)

variable {s : Scanner} {t u v w gap : Text} {c : Clause} {n : Nat} {ws : List Text}
  {x : Clause × Text} {xs : List (Clause × Text)}

/-! ## Cells of keywords and contents -/

/-- Words with single blanks between them are cells, before whatever else. -/
theorem exists_word_cells (hne : ws ≠ []) (h : ∀ w ∈ ws, s.Whole w) :
    ∃ init k, [' '].intercalate ws = Cell.texts init ++ k ∧ init.map (·.word) ++ [k] = ws ∧
      ∀ gap cs, Blank gap → gap ≠ [] → s.Cells cs → s.Cells (init ++ ⟨k, gap⟩ :: cs) := by
  induction ws with
  | nil => exact absurd rfl hne
  | cons w ws ih =>
    obtain ⟨hw, hws⟩ := List.forall_mem_cons.1 h
    cases ws with
    | nil =>
      exact ⟨[], w, List.intercalate_singleton, rfl, fun gap cs hgap hne hcs =>
        .cons hw hgap (fun he => absurd he hne) hcs⟩
    | cons v ws =>
      obtain ⟨init, k, htext, hwords, hcells⟩ := ih nofun hws
      refine ⟨⟨w, [' ']⟩ :: init, k, ?_, congrArg _ hwords, fun gap cs hgap hne hcs => ?_⟩
      · rw [List.intercalate_cons_cons, htext, Cell.texts_word]
        simp only [List.append_assoc]
      · exact .cons hw (List.forall_mem_singleton.2 rfl) nofun (hcells gap cs hgap hne hcs)

theorem Clause.name_eq (hc : c.keyword ≠ []) :
    c.name.toList = [' '].intercalate (c.keyword.map String.toList) := by
  cases c <;> first | rfl | exact absurd rfl hc

theorem Clause.names_keyword (hc : c.keyword ≠ []) : c.Names (c.keyword.map String.toList) := by
  refine ⟨by simpa using hc, ?_⟩
  rw [List.forall₂_map_left_iff, List.forall₂_same]
  exact fun k _ => beq_self_eq_true _

theorem Clause.whole_keyword : ∀ w ∈ c.keyword.map String.toList, s.Whole w := by
  have hnames : ∀ k ∈ c.keyword, k.toList ≠ [] ∧ k.toList.all isNameChar = true := by
    cases c <;> decide
  intro w hw
  obtain ⟨k, hk, rfl⟩ := List.mem_map.1 hw
  exact Scanner.whole_of_all (hnames k hk).1 (hnames k hk).2

theorem Grouped.append {wcs vcs : List WrittenClause} {cs ds : List Cell} (h : Grouped wcs cs)
    (h' : Grouped vcs ds) : Grouped (wcs ++ vcs) (cs ++ ds) := by
  induction h with
  | nil => exact h'
  | @cons c init es ds' k wcs hc hes _ ih =>
    have hsplit : init ++ k :: (es ++ ds') ++ ds = init ++ k :: (es ++ (ds' ++ ds)) := by simp
    rw [hsplit]
    exact .cons hc hes ih

theorem Grouped.ne_nil {wc : WrittenClause} {wcs : List WrittenClause} {cs : List Cell}
    (h : Grouped (wc :: wcs) cs) : cs ≠ [] := by
  cases h
  simp

/-- The cells of a clause after its name. -/
theorem exists_clause_cells (hc : c.keyword ≠ []) (ht : s.Keyless t) (hgap : Blank gap) :
    ∃ cs, s.Cells cs ∧ Grouped [⟨c, c.name.toList, ' ' :: (t ++ gap)⟩] cs := by
  obtain ⟨init, k, hname, hwords, hcells⟩ :=
    exists_word_cells (s := s) (by simpa using hc) c.whole_keyword
  have hb : s.Balanced (t ++ gap) := ht.balanced.append (Scanner.balanced_blanks hgap)
  obtain ⟨lead, es, hsplit, hlead, hes⟩ := hb.exists_cells
  have hkeyless : NoKeyword (es.map (·.word)) := by
    rw [← hes.topWords, ← Scanner.topWords_blanks hlead, ← hsplit,
      Scanner.topWords_append_blanks ht.balanced hgap]
    exact ht.noKeyword
  have hblank : Blank (' ' :: lead) := List.forall_mem_cons.2 ⟨rfl, hlead⟩
  refine ⟨_, hcells (' ' :: lead) es hblank nofun hes, ?_⟩
  have hnames : c.Names (init.map (·.word) ++ [k]) := hwords ▸ Clause.names_keyword hc
  have hone := @Grouped.cons c init es [] ⟨k, ' ' :: lead⟩ [] hnames hkeyless .nil
  rw [List.append_nil] at hone
  rwa [c.name_eq hc, hname, hsplit]

/-! ## Composed texts -/

/-- The text of some clauses: their names and texts with blanks between them. -/
def composed (xs : List (Clause × Text)) : Text :=
  [' '].intercalate (xs.map fun x => x.1.name.toList ++ ' ' :: x.2)

/-- The segments that the clauses become, as they follow after `n` placeholders. -/
def composedSections (s : Scanner) : Nat → List (Clause × Text) → List (Clause × Segment)
  | _, [] => []
  | n, x :: xs => (x.1, ⟨Text.trim x.2, n⟩) :: composedSections s (n + s.count x.2) xs

theorem composedSections_append (n : Nat) (xs ys : List (Clause × Text)) :
    composedSections s n (xs ++ ys) = composedSections s n xs ++
      composedSections s (n + (xs.map fun x => s.count x.2).sum) ys := by
  induction xs generalizing n with
  | nil => rfl
  | cons x xs ih =>
    rw [List.cons_append, composedSections, ih, List.map_cons, List.sum_cons, ← Nat.add_assoc]
    rfl

theorem composedSections_clauses (n : Nat) (xs : List (Clause × Text)) :
    (composedSections s n xs).map (·.1) = xs.map (·.1) := by
  induction xs generalizing n with
  | nil => rfl
  | cons x xs ih => exact congrArg _ (ih _)

theorem exists_of_mem_composedSections {y : Clause × Segment} (h : y ∈ composedSections s n xs) :
    ∃ x ∈ xs, ∃ k, y = (x.1, ⟨Text.trim x.2, k⟩) := by
  induction xs generalizing n with
  | nil => cases h
  | cons x xs ih =>
    rcases List.mem_cons.1 h with rfl | h
    · exact ⟨x, List.mem_cons_self, n, rfl⟩
    · obtain ⟨y, hy, hmem⟩ := ih h
      exact ⟨y, List.mem_cons_of_mem _ hy, hmem⟩

/-- What can be written as a clause of its own: a keyword, and a text that says something and has no
keyword. -/
structure Composable (s : Scanner) (x : Clause × Text) : Prop where
  keyword : x.1.keyword ≠ []
  keyless : s.Keyless x.2
  ne_nil : Text.trim x.2 ≠ []

theorem count_composed (h : ∀ x ∈ xs, Composable s x) :
    s.count (composed xs) = (xs.map fun x => s.count x.2).sum := by
  have hspace : Tame [' '] := by decide
  have htext : ∀ x ∈ xs, s.Balanced (x.1.name.toList ++ ' ' :: x.2) ∧
      s.count (x.1.name.toList ++ ' ' :: x.2) = s.count x.2 := by
    intro x hx
    have hname : Tame (x.1.name.toList ++ [' ']) := by cases x.1 <;> decide
    have hb : s.Neutral (x.1.name.toList ++ [' ']) := hname.neutral
    rw [show x.1.name.toList ++ ' ' :: x.2 = (x.1.name.toList ++ [' ']) ++ x.2 by simp,
      Scanner.count_append hb.1.run, hb.2, Nat.zero_add]
    exact ⟨hb.1.append (h x hx).keyless.balanced, rfl⟩
  rw [composed, Scanner.count_intercalate hspace.neutral, List.map_map]
  · exact congrArg List.sum (List.map_congr_left fun x hx => (htext x hx).2)
  · intro t ht
    obtain ⟨x, hx, rfl⟩ := List.mem_map.1 ht
    exact (htext x hx).1

/-- A clause that stands in a text has the content that was written. -/
structure WrittenClause.Stands (s : Scanner) (c : WrittenClause) (x : Clause × Text) : Prop where
  clause : c.clause = x.1
  trim : Text.trim c.content = Text.trim x.2
  count : s.count c.content = s.count x.2

theorem WrittenClause.Stands.of_blanks (s : Scanner) (x : Clause × Text) (k : Text) (hgap : Blank gap)
    (hx : s.Balanced x.2) : WrittenClause.Stands s ⟨x.1, k, ' ' :: (x.2 ++ gap)⟩ x := by
  have hblank : Blank [' '] := List.forall_mem_singleton.2 rfl
  refine ⟨rfl, Text.trim_blanks hblank hgap x.2, ?_⟩
  rw [show ' ' :: (x.2 ++ gap) = [' '] ++ (x.2 ++ gap) from rfl,
    Scanner.count_append (Scanner.balanced_blanks hblank).run, Scanner.count_append hx.run,
    Scanner.count_blanks hblank, Scanner.count_blanks hgap, Nat.zero_add, Nat.add_zero]

/-- The cells of a composed text are those of its clauses. -/
theorem exists_composed (hne : xs ≠ []) (h : ∀ x ∈ xs, Composable s x) :
    ∃ wcs cs, s.Cells cs ∧ Grouped wcs cs ∧ Cell.texts cs = composed xs ∧
      List.Forall₂ (WrittenClause.Stands s) wcs xs := by
  induction xs with
  | nil => exact absurd rfl hne
  | cons x xs ih =>
    obtain ⟨hx, hxs⟩ := List.forall_mem_cons.1 h
    cases xs with
    | nil =>
      obtain ⟨cs, hcs, hgroup⟩ := exists_clause_cells hx.keyword hx.keyless Scanner.blank_nil
      refine ⟨_, cs, hcs, hgroup, ?_,
        .cons (.of_blanks s x _ Scanner.blank_nil hx.keyless.balanced) .nil⟩
      rw [hgroup.texts_eq]
      simp [WrittenClause.texts, WrittenClause.text, composed]
    | cons y xs =>
      have hblank : Blank [' '] := List.forall_mem_singleton.2 rfl
      obtain ⟨wcs, ds, hds, hrest, htext, hall⟩ := ih (List.cons_ne_nil _ _) hxs
      obtain ⟨cs, hcs, hgroup⟩ := exists_clause_cells hx.keyword hx.keyless hblank
      have hcell : Cell.texts cs = (x.1.name.toList ++ ' ' :: x.2) ++ [' '] := by
        rw [hgroup.texts_eq]
        simp [WrittenClause.texts, WrittenClause.text]
      -- the blank before the next clause stands after the last word of this one
      have hgaps : ∀ c ∈ cs, c.gap ≠ [] :=
        hcs.gap_ne_nil_of_blank (by rw [hcell, List.getLast?_concat]) rfl
      refine ⟨_, cs ++ ds, hcs.append hgaps hds, hgroup.append hrest, ?_,
        .cons (.of_blanks s x _ hblank hx.keyless.balanced) hall⟩
      rw [Cell.texts_append, hcell, htext, composed, composed, List.map_cons, List.map_cons,
        List.map_cons, List.intercalate_cons_cons]

theorem WrittenClause.sections_stands {wcs : List WrittenClause}
    (h : List.Forall₂ (Stands s) wcs xs) (n : Nat) : sections s n wcs = composedSections s n xs := by
  induction h generalizing n with
  | nil => rfl
  | cons hc _ ih => rw [sections, composedSections, hc.clause, hc.trim, hc.count, ih]

theorem WrittenClause.clauses_stands {wcs : List WrittenClause}
    (h : List.Forall₂ (Stands s) wcs xs) : wcs.map (·.clause) = xs.map (·.1) := by
  induction h with
  | nil => rfl
  | cons hc _ ih => rw [List.map_cons, List.map_cons, hc.clause, ih]

theorem WrittenClause.trim_ne_nil_stands {wcs : List WrittenClause}
    (h : List.Forall₂ (Stands s) wcs xs) (hne : ∀ x ∈ xs, Text.trim x.2 ≠ []) :
    ∀ c ∈ wcs, Text.trim c.content ≠ [] := by
  induction h with
  | nil => exact nofun
  | cons hc _ ih =>
    obtain ⟨hx, hne⟩ := List.forall_mem_cons.1 hne
    exact List.forall_mem_cons.2 ⟨hc.trim ▸ hx, ih hne⟩

/-- Reading a composed text, in which no clause is repeated, is reading its segments. -/
theorem Query.parse_composed (hne : xs ≠ []) (h : ∀ x ∈ xs, Composable s x)
    (hnodup : (xs.map (·.1)).Nodup) : Query.parse s (composed xs) =
      Draft.readSections s {} (composedSections s 0 xs) >>= fun d =>
        match d.source with
        | none => malformed .from .noSource
        | some source => .ok
          { d.toClauseTexts with source, placeholders := s.count (composed xs) } := by
  obtain ⟨wcs, cs, hcs, hgroup, htext, hall⟩ := exists_composed hne h
  have hcells : cs ≠ [] := by
    cases hall with
    | nil => exact absurd rfl hne
    | cons => exact hgroup.ne_nil
  have htrim : ∀ c ∈ wcs, Text.trim c.content ≠ [] :=
    WrittenClause.trim_ne_nil_stands hall fun x hx => (h x hx).ne_nil
  have hparse := Query.parse_sections Scanner.blank_nil hcs hgroup hcells
    (by rwa [WrittenClause.clauses_stands hall]) htrim
  rw [WrittenClause.sections_stands hall, List.nil_append, htext] at hparse
  exact hparse

/-! ## Clauses that are not kept as they are -/

/-- The segment of a `SELECT` clause whose first word is not `DISTINCT`. -/
theorem readDistinct_trim (ht : s.Balanced t)
    (h : ∀ w ∈ (s.topWords t).head?, w.isWord "DISTINCT" = false) :
    readDistinct s ⟨Text.trim t, n⟩ = .ok (false, ⟨Text.trim t, n⟩) := by
  obtain ⟨lead, cs, he, hlead, hcs⟩ := ht.trim.exists_cells
  rw [← Scanner.topWords_trim ht, he, Scanner.topWords_blanks hlead, hcs.topWords] at h
  rw [he]
  cases cs with
  | nil =>
    rw [readDistinct, hcs.wordSpans hlead]
    rfl
  | cons k cs => rw [readDistinct_cells hlead hcs, h k.word rfl, if_neg Bool.false_ne_true]

/-- The segment of a `SELECT` clause whose first word is `DISTINCT`. -/
theorem readDistinct_trim_distinct (hw : s.Whole w) (hword : w.isWord "DISTINCT" = true)
    (ht : s.Balanced t) (hne : Text.trim t ≠ []) :
    readDistinct s ⟨Text.trim (w ++ ' ' :: t), n⟩ = .ok (true, ⟨Text.trim t, n⟩) := by
  have hblank : Blank [' '] := List.forall_mem_singleton.2 rfl
  have hb : s.Balanced (w ++ ' ' :: t) := hw.balanced.append (Scanner.balanced_space.append ht)
  have hwords : s.topWords (w ++ ' ' :: t) = w :: s.topWords t := by
    rw [Scanner.topWords_append_blank hw.balanced rfl, hw.topWords]
    rfl
  obtain ⟨lead, cs, he, hlead, hcs⟩ := hb.trim.exists_cells
  rw [← Scanner.topWords_trim hb, he, Scanner.topWords_blanks hlead, hcs.topWords] at hwords
  obtain ⟨k, cs, rfl, hk, -⟩ := List.map_eq_cons_iff.1 hwords
  -- no blanks stand before the word, so what is cut off stands after it
  have hrest : Text.trim (k.gap ++ Cell.texts cs) = Text.trim t := by
    obtain ⟨l, r, hsplit, hl, hr⟩ := Text.exists_trim (w ++ ' ' :: t)
    obtain ⟨c, v, hwc, hc⟩ := hw.exists_cons
    rw [he, ← List.append_assoc, List.append_assoc (l ++ lead)] at hsplit
    have hnone : l ++ lead = [] :=
      Text.blanks_eq_nil (List.forall_mem_append.2 ⟨hl, hlead⟩) (by rw [← hsplit, hwc]; rfl) hc
    rw [hnone, List.nil_append, Cell.texts_word, hk, List.append_assoc] at hsplit
    have htrim := congrArg Text.trim (List.append_cancel_left hsplit)
    rw [Text.trim_append_blanks hr] at htrim
    exact htrim.symm.trans (Text.trim_blanks_append hblank t)
  rw [he, readDistinct_cells hlead hcs, hk, hword, if_pos rfl, if_neg (hrest ▸ hne), hrest]

theorem isLower_toLower_of_isDigit {d : Char} (h : d.isDigit = true) :
    d.toLower.isLower = false := by
  have h0 : '0'.val.toNat = 48 := rfl
  have h9 : '9'.val.toNat = 57 := rfl
  have hA : 'A'.val.toNat = 65 := rfl
  have ha : 'a'.val.toNat = 97 := rfl
  simp only [Char.isDigit, Bool.and_eq_true, decide_eq_true_eq, UInt32.le_iff_toNat_le] at h
  have hupper : ¬ (d.val ≥ 'A'.val ∧ d.val ≤ 'Z'.val) := by
    simp only [ge_iff_le, UInt32.le_iff_toNat_le]
    omega
  rw [Char.toLower, dif_neg hupper]
  simp only [Char.isLower, Bool.and_eq_false_iff, decide_eq_false_iff_not, ge_iff_le,
    UInt32.le_iff_toNat_le]
  omega

/-- A number is written as a word that is no part of a keyword. -/
theorem keyless_toString (n : Nat) : s.Keyless (toString n).toList := by
  obtain ⟨k, hk⟩ := List.exists_mem_of_ne_nil _ (toString_ne_nil n)
  have hw : s.Whole (toString n).toList :=
    .of_isNameChar (toString_ne_nil n) fun _ => isNameChar_of_mem_toString
  exact hw.keyless (.of_mem hk (isLower_toLower_of_isDigit (isDigit_of_mem_toString hk)))

/-- A number is written without blanks. -/
theorem trim_toString (n : Nat) : Text.trim (toString n).toList = (toString n).toList :=
  Text.trim_eq_self fun _ h => Scanner.isBlank_of_isNameChar (isNameChar_of_mem_toString h)

/-- A number that is written in digits is read again. -/
theorem readCount_toString (hn : n < countBound) : readCount c (toString n).toList = .ok n := by
  have hvalue : Text.digitsValue (toString n).toList = n := by
    rw [Nat.toString_eq_repr, Nat.toList_repr]
    exact Nat.ofDigitChars_ten_toDigits
  have hdigits : (toString n).toList.all Char.isDigit = true :=
    List.all_eq_true.2 fun _ => isDigit_of_mem_toString
  have hne : (toString n).toList.isEmpty = false :=
    List.isEmpty_eq_false_iff.2 (toString_ne_nil n)
  rw [readCount, Text.unsigned?, hvalue, hdigits, hne, if_pos (by simp [hn])]

end ObjectQuery
