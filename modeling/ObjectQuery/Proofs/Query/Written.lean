import ObjectQuery.Proofs.Query.Clauses
import ObjectQuery.Proofs.Text.Cells

/-! # Clauses as they are written

A clause is a keyword and what comes up to the next keyword. The words of a text are grouped in one
way: those before the first keyword, and then, for each clause, its keyword and words among which
there is none.

* `Clause.Names`, `NoKeyword`: keywords among words, and how they are found;
* `WrittenClause`: a clause of a text, `Clause.Spelled`, `Scanner.Keyless`: what it consists of;
* `Grouped`, `exists_grouped`: the cells of clauses, and of all texts;
* `Grouped.marks_eq`, `Grouped.proper`, `Grouped.words_eq`: where the clauses are found, and what is
  known of them. -/

namespace ObjectQuery

variable {s : Scanner} {t u v w : Text} {c : Clause} {ws kw : List Text}

/-! ## Keywords -/

/-- The words of the keyword of a clause; the parts of a query that no keyword of its own starts
have none. -/
def Clause.keyword : Clause → List String
  | .select => ["SELECT"]
  | .from => ["FROM"]
  | .where => ["WHERE"]
  | .groupBy => ["GROUP", "BY"]
  | .having => ["HAVING"]
  | .orderBy => ["ORDER", "BY"]
  | .limit => ["LIMIT"]
  | .offset => ["OFFSET"]
  | .query | .join | .indexBy => []

/-- The words are the keyword of the clause, in upper or lower case. -/
def Clause.Names (c : Clause) (ws : List Text) : Prop :=
  ws ≠ [] ∧ List.Forall₂ (fun w k => w.isWord k = true) ws c.keyword

/-- No keyword is among the words. -/
def NoKeyword (ws : List Text) : Prop := ∀ c : Clause, ∀ kw, kw <:+: ws → ¬ c.Names kw

namespace Clause

theorem names_word : c.Names [w] ↔ ∃ k, c.keyword = [k] ∧ w.isWord k = true := by
  simp [Names, List.forall₂_cons_left_iff, and_comm]

theorem names_words : c.Names [v, w] ↔
    ∃ j k, c.keyword = [j, k] ∧ v.isWord j = true ∧ w.isWord k = true := by
  simp only [Names, List.forall₂_cons_left_iff, List.forall₂_nil_left_iff]
  constructor
  · rintro ⟨-, j, _, hv, ⟨k, _, hw, rfl, rfl⟩, he⟩
    exact ⟨j, k, he, hv, hw⟩
  · rintro ⟨j, k, he, hv, hw⟩
    exact ⟨nofun, j, [k], hv, ⟨k, [], hw, rfl, rfl⟩, he⟩

theorem Names.length_le (h : c.Names kw) : kw ≠ [] ∧ kw.length ≤ 2 := by
  refine ⟨h.1, h.2.length_eq ▸ ?_⟩
  cases c <;> decide

end Clause

theorem clauseWord?_eq_some : clauseWord? w = some c ↔ c.Names [w] := by
  rw [Clause.names_word]
  constructor
  · intro h
    simp only [clauseWord?] at h
    repeat'
      split at h
      · rename_i hw
        cases h
        exact ⟨_, rfl, hw⟩
    cases h
  · rintro ⟨k, hk, hw⟩
    cases c <;> cases hk <;> simp [clauseWord?, hw, Text.isWord_ne hw]

theorem clauseWords?_eq_some : clauseWords? v w = some c ↔ c.Names [v, w] := by
  rw [Clause.names_words]
  constructor
  · intro h
    simp only [clauseWords?, Bool.not_eq_true'] at h
    split at h
    · cases h
    · rename_i hw
      rw [Bool.not_eq_false] at hw
      repeat'
        split at h
        · rename_i hv
          cases h
          exact ⟨_, _, rfl, hv, hw⟩
      cases h
  · rintro ⟨j, k, hk, hv, hw⟩
    cases c <;> cases hk <;> simp [clauseWords?, hv, hw, Text.isWord_ne hv]

theorem noKeyword_nil : NoKeyword [] := by
  rintro c kw hkw ⟨hne, -⟩
  exact hne (List.infix_nil.1 hkw)

/-- There is no keyword when none begins with the first word and none is among the others. -/
theorem noKeyword_cons : NoKeyword (w :: ws) ↔
    clauseWord? w = none ∧ (∀ v ∈ ws.head?, clauseWords? w v = none) ∧ NoKeyword ws := by
  constructor
  · intro h
    refine ⟨?_, fun v hv => ?_, fun c kw hkw => h c kw (hkw.trans (List.suffix_cons w ws).isInfix)⟩
    · refine Option.eq_none_iff_forall_ne_some.2 fun c hc => h c [w] ?_ (clauseWord?_eq_some.1 hc)
      exact ⟨[], ws, rfl⟩
    · obtain ⟨ws, rfl⟩ := List.head?_eq_some_iff.1 hv
      refine Option.eq_none_iff_forall_ne_some.2 fun c hc => h c [w, v] ?_ (clauseWords?_eq_some.1 hc)
      exact ⟨[], ws, rfl⟩
  · rintro ⟨hone, htwo, hrest⟩ c kw hkw hc
    rcases List.infix_cons_iff.1 hkw with hpre | hin
    · obtain ⟨hne, hlen⟩ := hc.length_le
      match kw with
      | [a] =>
        obtain ⟨_, he⟩ := hpre
        cases he
        rw [clauseWord?_eq_some.2 hc] at hone
        cases hone
      | [a, b] =>
        obtain ⟨_, he⟩ := hpre
        cases he
        cases (clauseWords?_eq_some.2 hc).symm.trans (htwo b rfl)
      | _ :: _ :: _ :: _ => simp at hlen
    · exact hrest c kw hin hc

instance decidableNoKeyword : DecidablePred NoKeyword
  | [] => isTrue noKeyword_nil
  | _ :: ws =>
    have := decidableNoKeyword ws
    decidable_of_iff' _ noKeyword_cons

/-- Two words that are a keyword together are none one by one. -/
theorem Clause.Names.clauseWord?_eq_none (h : c.Names [v, w]) : clauseWord? v = none := by
  obtain ⟨j, k, hk, hv, -⟩ := names_words.1 h
  cases c <;> cases hk <;> simp [clauseWord?, Text.isWord_ne hv]

/-- No keyword begins with a word and goes on with the first word of a keyword. -/
theorem Clause.Names.clauseWords?_eq_none (h : c.Names (w :: kw)) (v : Text) :
    clauseWords? v w = none := by
  obtain ⟨-, hkw⟩ := h
  rw [List.forall₂_cons_left_iff] at hkw
  obtain ⟨k, ks, hw, -, hk⟩ := hkw
  cases c <;> cases hk <;> simp [clauseWords?, Text.isWord_ne hw]

/-! ## Clauses as they are written -/

/-- A clause as it stands in a text: its keyword, and what comes up to the next keyword. -/
structure WrittenClause where
  clause : Clause
  keyword : Text
  content : Text

namespace WrittenClause

/-- The part of a text that the clause is. -/
def text (c : WrittenClause) : Text := c.keyword ++ c.content

/-- The part of a text that several clauses are. -/
def texts (cs : List WrittenClause) : Text := cs.flatMap text

/-- Where the clauses stand that begin at `pos`. -/
def marks : Nat → List WrittenClause → List ClauseMark
  | _, [] => []
  | pos, c :: cs => ⟨c.clause, pos, pos + c.keyword.length⟩ :: marks (pos + c.text.length) cs

theorem texts_cons (c : WrittenClause) (cs : List WrittenClause) :
    texts (c :: cs) = c.keyword ++ (c.content ++ texts cs) := by
  rw [texts, List.flatMap_cons, text, List.append_assoc]
  rfl

end WrittenClause

/-- The text is the keyword of a clause: a word, or two words and the blanks between them. -/
inductive Clause.Spelled (c : Clause) : Text → Prop
  | word {w : Text} (h : c.Names [w]) : c.Spelled w
  | words {v gap w : Text} (h : c.Names [v, w]) (hgap : Scanner.Blank gap) (hne : gap ≠ []) :
    c.Spelled (v ++ gap ++ w)

/-- The text is balanced, and no keyword is among its words. -/
structure Scanner.Keyless (s : Scanner) (t : Text) : Prop where
  balanced : s.Balanced t
  noKeyword : NoKeyword (s.topWords t)

/-- The cells are those of the clauses: for each clause the cells of its keyword, and cells without
a keyword. -/
inductive Grouped : List WrittenClause → List Cell → Prop
  | nil : Grouped [] []
  | cons {c : Clause} {init es ds : List Cell} {k : Cell} {wcs : List WrittenClause}
    (hc : c.Names (init.map (·.word) ++ [k.word])) (hes : NoKeyword (es.map (·.word)))
    (h : Grouped wcs ds) :
    Grouped (⟨c, Cell.texts init ++ k.word, k.gap ++ Cell.texts es⟩ :: wcs)
      (init ++ k :: (es ++ ds))

section
variable {cs ds es : List Cell} {k d : Cell} {wcs : List WrittenClause} {pos : Nat}

theorem clauseMarks_word (hk : c.Names [k.word]) (ht : t.drop pos = Cell.texts (k :: cs)) :
    clauseMarks t (Cell.spans pos (k :: cs)) =
      ⟨c, pos, pos + k.word.length⟩ :: clauseMarks t (Cell.spans (pos + k.text.length) cs) := by
  have hc := clauseWord?_eq_some.2 hk
  cases cs <;> simp only [Cell.spans, clauseMarks, Scanner.slice_word ht, hc]

theorem clauseMarks_skip (hone : clauseWord? k.word = none)
    (htwo : ∀ d ∈ cs.head?, clauseWords? k.word d.word = none)
    (ht : t.drop pos = Cell.texts (k :: cs)) :
    clauseMarks t (Cell.spans pos (k :: cs)) =
      clauseMarks t (Cell.spans (pos + k.text.length) cs) := by
  cases cs with
  | nil => simp only [Cell.spans, clauseMarks, Scanner.slice_word ht, hone]
  | cons d cs =>
    have hd := Scanner.slice_word (Scanner.drop_text ht)
    simp only [Cell.spans, clauseMarks, Scanner.slice_word ht, hone, hd, htwo d rfl]

theorem clauseMarks_words (hk : c.Names [k.word, d.word])
    (ht : t.drop pos = Cell.texts (k :: d :: cs)) :
    clauseMarks t (Cell.spans pos (k :: d :: cs)) =
      ⟨c, pos, pos + k.text.length + d.word.length⟩ ::
        clauseMarks t (Cell.spans (pos + k.text.length + d.text.length) cs) := by
  have hd := Scanner.slice_word (Scanner.drop_text ht)
  simp only [Cell.spans, clauseMarks, Scanner.slice_word ht, hk.clauseWord?_eq_none, hd,
    clauseWords?_eq_some.2 hk]

/-- Cells without a keyword are passed over. -/
theorem clauseMarks_content (hes : NoKeyword (es.map (·.word)))
    (hds : ∀ d ∈ ds.head?, ∀ v, clauseWords? v d.word = none)
    (ht : t.drop pos = Cell.texts (es ++ ds)) :
    clauseMarks t (Cell.spans pos (es ++ ds)) =
      clauseMarks t (Cell.spans (pos + (Cell.texts es).length) ds) := by
  induction es generalizing pos with
  | nil => rfl
  | cons e es ih =>
    obtain ⟨hone, htwo, hes⟩ := noKeyword_cons.1 hes
    have hnext : ∀ d ∈ (es ++ ds).head?, clauseWords? e.word d.word = none := by
      intro d hd
      cases es with
      | nil => exact hds d hd e.word
      | cons f es => exact htwo d.word (by cases hd; rfl)
    rw [List.cons_append, clauseMarks_skip hone hnext ht, ih hes (Scanner.drop_text ht),
      Cell.texts_cons, List.length_append, Nat.add_assoc]

namespace Grouped

/-- A keyword of one word before other clauses. -/
theorem word (hc : c.Names [k.word]) (hes : NoKeyword (es.map (·.word))) (h : Grouped wcs ds) :
    Grouped (⟨c, k.word, k.gap ++ Cell.texts es⟩ :: wcs) (k :: (es ++ ds)) :=
  @cons c [] es ds k wcs hc hes h

/-- A keyword of two words before other clauses. -/
theorem words (hc : c.Names [k.word, d.word]) (hes : NoKeyword (es.map (·.word)))
    (h : Grouped wcs ds) :
    Grouped (⟨c, k.text ++ d.word, d.gap ++ Cell.texts es⟩ :: wcs) (k :: d :: (es ++ ds)) := by
  have hcons := @cons c [k] es ds d wcs hc hes h
  rwa [Cell.texts_cons, Cell.texts_nil, List.append_nil] at hcons

/-- The first word is that of a keyword. -/
theorem head (h : Grouped wcs cs) : ∀ d ∈ cs.head?, ∀ v, clauseWords? v d.word = none := by
  cases h with
  | nil => exact nofun
  | @cons c init es ds k wcs hc hes h =>
    intro d hd v
    cases init with
    | nil =>
      cases hd
      exact hc.clauseWords?_eq_none v
    | cons e init =>
      cases hd
      exact hc.clauseWords?_eq_none v

theorem exists_cons (h : Grouped wcs cs) (hne : cs ≠ []) : ∃ c rest, wcs = c :: rest := by
  cases h with
  | nil => exact absurd rfl hne
  | cons => exact ⟨_, _, rfl⟩

theorem texts_eq (h : Grouped wcs cs) : Cell.texts cs = WrittenClause.texts wcs := by
  induction h with
  | nil => rfl
  | cons hc hes h ih =>
    rw [Cell.texts_append, Cell.texts_word, Cell.texts_append, WrittenClause.texts_cons, ih]
    simp only [List.append_assoc]

/-- The clauses are found where they stand. -/
theorem marks_eq (h : Grouped wcs cs) (ht : t.drop pos = Cell.texts cs) :
    clauseMarks t (Cell.spans pos cs) = WrittenClause.marks pos wcs := by
  induction h generalizing pos with
  | nil => rfl
  | @cons c init es ds k wcs hc hes h ih =>
    obtain ⟨-, hlen⟩ := hc.length_le
    match init with
    | [] =>
      have hrest := Scanner.drop_text ht
      rw [List.nil_append, clauseMarks_word hc ht, clauseMarks_content hes h.head hrest,
        ih (Scanner.drop_of_drop (hrest.trans (Cell.texts_append _ _)))]
      simp [WrittenClause.marks, WrittenClause.text, Cell.text, Nat.add_assoc]
    | [e] =>
      have hrest := Scanner.drop_text (Scanner.drop_text ht)
      rw [List.singleton_append, clauseMarks_words hc ht, clauseMarks_content hes h.head hrest,
        ih (Scanner.drop_of_drop (hrest.trans (Cell.texts_append _ _)))]
      simp [WrittenClause.marks, WrittenClause.text, Cell.text, Cell.texts_word, Nat.add_assoc]
    | _ :: _ :: _ => simp at hlen

end Grouped

/-- Cells are cells without a keyword, and then those of clauses. -/
theorem exists_grouped : ∀ cs : List Cell, ∃ es ds wcs,
    cs = es ++ ds ∧ NoKeyword (es.map (·.word)) ∧ Grouped wcs ds
  | [] => ⟨[], [], [], rfl, noKeyword_nil, .nil⟩
  | [k] => by
    cases hone : clauseWord? k.word with
    | some c =>
      have hk := @Grouped.word c [] [] k [] (clauseWord?_eq_some.1 hone) noKeyword_nil .nil
      exact ⟨[], _, _, rfl, noKeyword_nil, hk⟩
    | none => exact ⟨[k], [], [], rfl, noKeyword_cons.2 ⟨hone, nofun, noKeyword_nil⟩, .nil⟩
  | k :: d :: cs => by
    obtain ⟨es, ds, wcs, he, hes, hds⟩ := exists_grouped (d :: cs)
    cases hone : clauseWord? k.word with
    | some c =>
      refine ⟨[], _, _, ?_, noKeyword_nil, .word (clauseWord?_eq_some.1 hone) hes hds⟩
      rw [he, List.nil_append]
    | none =>
      cases htwo : clauseWords? k.word d.word with
      | some c =>
        obtain ⟨es, ds, wcs, rfl, hes, hds⟩ := exists_grouped cs
        exact ⟨[], _, _, rfl, noKeyword_nil, .words (clauseWords?_eq_some.1 htwo) hes hds⟩
      | none =>
        refine ⟨k :: es, ds, wcs, by rw [he]; rfl, noKeyword_cons.2 ⟨hone, fun v hv => ?_, hes⟩, hds⟩
        cases es with
        | nil => cases hv
        | cons e es =>
          cases he
          cases hv
          exact htwo

end

/-! ## Keywords and contents -/

theorem tame_of_forall₂_isWord {ks : List String}
    (h : List.Forall₂ (fun w k => w.isWord k = true) ws ks)
    (hks : ∀ k ∈ ks, (k.toList.map Char.toLower).all isNameChar = true) : ∀ w ∈ ws, Tame w := by
  induction h with
  | nil => exact nofun
  | cons hw _ ih =>
    obtain ⟨hk, hks⟩ := List.forall_mem_cons.1 hks
    exact List.forall_mem_cons.2 ⟨Text.tame_of_isWord hw hk, ih hks⟩

theorem Clause.Names.tame (h : c.Names ws) : ∀ w ∈ ws, Tame w :=
  tame_of_forall₂_isWord h.2 (by cases c <;> decide)

theorem Clause.Spelled.tame (h : c.Spelled t) : Tame t := by
  cases h with
  | word h => exact h.tame _ (by simp)
  | words h hgap =>
    exact ((h.tame _ (by simp)).append hgap.tame).append (h.tame _ (by simp))

namespace Scanner

theorem Balanced.trim (h : s.Balanced t) : s.Balanced (Text.trim t) := by
  obtain ⟨⟨_, hstands⟩, -⟩ := h.stands_trim
  exact hstands.balanced

theorem topWords_trim (h : s.Balanced t) : s.topWords (Text.trim t) = s.topWords t := by
  obtain ⟨l, r, ht, hl, hr⟩ := Text.exists_trim t
  conv => rhs; rw [ht, List.append_assoc, topWords_blanks hl, topWords_append_blanks h.trim hr]

theorem Keyless.trim (h : s.Keyless t) : s.Keyless (Text.trim t) :=
  ⟨h.balanced.trim, (topWords_trim h.balanced).symm ▸ h.noKeyword⟩

theorem Cells.keyless {gap : Text} {cs : List Cell} (h : s.Cells cs) (hgap : Blank gap)
    (hcs : NoKeyword (cs.map (·.word))) : s.Keyless (gap ++ Cell.texts cs) := by
  refine ⟨(balanced_blanks hgap).append h.balanced, ?_⟩
  rwa [topWords_blanks hgap, h.topWords]

end Scanner

/-- The clause has the keyword it should have, and no other one. -/
structure WrittenClause.Proper (s : Scanner) (c : WrittenClause) : Prop where
  spelled : c.clause.Spelled c.keyword
  keyless : s.Keyless c.content

namespace Grouped

variable {cs : List Cell} {wcs : List WrittenClause}

theorem proper (h : Grouped wcs cs) (hcs : s.Cells cs) : ∀ c ∈ wcs, c.Proper s := by
  induction h with
  | nil => exact nofun
  | @cons c init es ds k wcs hc hes h ih =>
    have hrest := hcs.of_append_right
    obtain _ | ⟨hk, hkgap, -, hrest⟩ := hrest
    refine List.forall_mem_cons.2
      ⟨⟨?_, hrest.of_append_left.keyless hkgap hes⟩, ih hrest.of_append_right⟩
    obtain ⟨-, hlen⟩ := hc.length_le
    match init with
    | [] => exact .word hc
    | [e] =>
      obtain _ | ⟨he, hgap, hlast, -⟩ := hcs
      rw [Cell.texts_cons, Cell.texts_nil, List.append_nil]
      exact .words hc hgap fun hnone => by cases hlast hnone
    | _ :: _ :: _ => simp at hlen

/-- The words of the cells are those of the keywords and contents. -/
theorem words_eq (h : Grouped wcs cs) (hcs : s.Cells cs) :
    cs.map (·.word) = wcs.flatMap fun c => s.topWords c.keyword ++ s.topWords c.content := by
  induction h with
  | nil => rfl
  | @cons c init es ds k wcs hc hes h ih =>
    have hinit := hcs.of_append_left
    have hrest := hcs.of_append_right
    have hgap := hcs.gap_ne_nil (List.cons_ne_nil _ _)
    obtain _ | ⟨hk, hkgap, -, hrest⟩ := hrest
    have hkeyword : s.topWords (Cell.texts init ++ k.word) = init.map (·.word) ++ [k.word] := by
      have hcells : s.Cells (init ++ [⟨k.word, []⟩]) :=
        hinit.append hgap (.cons hk Scanner.blank_nil (fun _ => rfl) .nil)
      have hwords := hcells.topWords
      rwa [Cell.texts_append, Cell.texts_word, Cell.texts_nil, List.append_nil, List.append_nil,
        List.map_append] at hwords
    rw [List.flatMap_cons, hkeyword, Scanner.topWords_blanks hkgap, hrest.of_append_left.topWords,
      ← ih hrest.of_append_right]
    simp

end Grouped

end ObjectQuery
