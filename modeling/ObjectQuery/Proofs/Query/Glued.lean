import ObjectQuery.Proofs.Query.Segments
import ObjectQuery.Query.Builder

/-! # Texts that are glued together

A query is put together from texts with commas, blanks, parentheses and words between them. When no
text has a keyword, the whole has none: every seam has a word that is no part of a keyword.

* `Inert`, `noKeyword_append`: words that are no part of keywords;
* `Scanner.Keyless.comma`, `Scanner.Keyless.conjunction`, `Scanner.Keyless.join`: seams;
* `Scanner.count_intercalate`: the placeholders of what is glued together. -/

namespace ObjectQuery

variable {s : Scanner} {t u v w : Text} {ts ws vs : List Text} {c : Char}

/-! ## Words that belong to no keyword -/

/-- The word is no part of any keyword. -/
def Inert (w : Text) : Prop := ∀ c : Clause, ∀ k ∈ c.keyword, w.isWord k = false

theorem Clause.isLower_keyword (c : Clause) :
    ∀ k ∈ c.keyword, (k.toList.map Char.toLower).all Char.isLower = true := by
  cases c <;> decide

/-- A word with a character that is no letter is no word of letters. -/
theorem Text.isWord_eq_false_of_mem {k : String} (hc : c ∈ w) (h : c.toLower.isLower = false)
    (hk : (k.toList.map Char.toLower).all Char.isLower = true) : w.isWord k = false := by
  refine Bool.eq_false_of_not_eq_true fun hw => ?_
  rw [isWord, sameWord, beq_iff_eq] at hw
  have hlower := List.all_eq_true.1 hk c.toLower (hw ▸ List.mem_map_of_mem hc)
  rw [h] at hlower
  cases hlower

namespace Inert

theorem clauseWord?_eq_none (h : Inert w) : clauseWord? w = none := by
  refine Option.eq_none_iff_forall_ne_some.2 fun c hc => ?_
  obtain ⟨k, hk, hw⟩ := Clause.names_word.1 (clauseWord?_eq_some.1 hc)
  rw [h c k (by simp [hk])] at hw
  cases hw

theorem clauseWords?_left (h : Inert v) (w : Text) : clauseWords? v w = none := by
  refine Option.eq_none_iff_forall_ne_some.2 fun c hc => ?_
  obtain ⟨j, k, hk, hv, -⟩ := Clause.names_words.1 (clauseWords?_eq_some.1 hc)
  rw [h c j (by simp [hk])] at hv
  cases hv

theorem clauseWords?_right (h : Inert w) (v : Text) : clauseWords? v w = none := by
  refine Option.eq_none_iff_forall_ne_some.2 fun c hc => ?_
  obtain ⟨j, k, hk, -, hw⟩ := Clause.names_words.1 (clauseWords?_eq_some.1 hc)
  rw [h c k (by simp [hk])] at hw
  cases hw

/-- A word is no part of a keyword when it has a character that is no letter. -/
theorem of_mem (hc : c ∈ w) (h : c.toLower.isLower = false) : Inert w :=
  fun clause k hk => Text.isWord_eq_false_of_mem hc h (clause.isLower_keyword k hk)

end Inert

/-- Around a word that is no part of a keyword there is none that goes across. -/
theorem noKeyword_append (hws : NoKeyword ws) (hw : Inert w) (hvs : NoKeyword vs) :
    NoKeyword (ws ++ w :: vs) := by
  induction ws with
  | nil =>
    exact noKeyword_cons.2 ⟨hw.clauseWord?_eq_none, fun v _ => hw.clauseWords?_left v, hvs⟩
  | cons a ws ih =>
    obtain ⟨hone, htwo, hws⟩ := noKeyword_cons.1 hws
    refine noKeyword_cons.2 ⟨hone, fun v hv => ?_, ih hws⟩
    cases ws with
    | nil =>
      cases hv
      exact hw.clauseWords?_right a
    | cons b ws => exact htwo v hv

theorem noKeyword_singleton (hw : Inert w) : NoKeyword [w] :=
  noKeyword_append noKeyword_nil hw noKeyword_nil

theorem NoKeyword.of_append_left (h : NoKeyword (ws ++ vs)) : NoKeyword ws := fun c kw hkw =>
  h c kw (hkw.trans (List.prefix_append ws vs).isInfix)

namespace Scanner

/-! ## Words at the end of a text -/

/-- A character that is no blank is written at the end of the last word, or is a word of its own. -/
theorem exists_wordsAfter_snoc {r : Reading} {current : Option Text} (h : s.read r t = some .start)
    (hc : isBlank c = false) (hn : (Reading.next s .start c).isSome = true) :
    ∃ ws v, s.wordsAfter r current (t ++ [c]) = ws ++ [v ++ [c]] ∧
      (s.wordsAfter r current t = ws ++ [v] ∨ v = [] ∧ s.wordsAfter r current t = ws) := by
  induction t generalizing r current with
  | nil =>
    cases h
    obtain ⟨r', hr'⟩ := Option.isSome_iff_exists.1 hn
    refine ⟨[], current.getD [], ?_, ?_⟩
    · rw [List.nil_append, wordsAfter_next (fun _ => hc) hr']
      rfl
    · cases current
      · exact .inr ⟨rfl, rfl⟩
      · exact .inl rfl
  | cons d t ih =>
    obtain ⟨m, hm, h⟩ := Option.bind_eq_some_iff.1 h
    by_cases hd : r = .start ∧ isBlank d = true
    · obtain ⟨rfl, hd⟩ := hd
      cases (next_plain (isPlain_of_isBlank hd)).symm.trans hm
      obtain ⟨ws, v, hnew, hold⟩ := @ih .start none h
      refine ⟨current.toList ++ ws, v, ?_, ?_⟩
      · rw [List.cons_append, wordsAfter_blank hd, List.append_assoc]
        exact congrArg _ hnew
      · rw [wordsAfter_blank hd, List.append_assoc]
        exact hold.imp (congrArg _) (And.imp_right (congrArg _))
    · have hd : r = .start → isBlank d = false := fun hr =>
        Bool.eq_false_of_not_eq_true fun hb => hd ⟨hr, hb⟩
      rw [List.cons_append, wordsAfter_next hd hm, wordsAfter_next hd hm]
      exact ih h

/-! ## Seams -/

theorem Whole.of_isNameChar (hne : w ≠ []) (h : ∀ c ∈ w, isNameChar c = true) : s.Whole w :=
  ⟨hne, (tame_of_isNameChar h).neutral.1,
    unbroken_of_forall fun c hc => isBlank_of_isNameChar (h c hc)⟩

theorem Whole.keyless (h : s.Whole w) (hw : Inert w) : s.Keyless w :=
  ⟨h.balanced, h.topWords ▸ noKeyword_singleton hw⟩

theorem balanced_space : s.Balanced [' '] := balanced_blanks (List.forall_mem_singleton.2 rfl)

/-- The words of texts with a comma and a blank between them: the comma is written at the end of a
word, or is a word of its own. -/
theorem topWords_comma (ht : s.Balanced t) (u : Text) :
    ∃ ws v, s.topWords (t ++ (", ".toList ++ u)) = ws ++ (v ++ [',']) :: s.topWords u ∧
      (s.topWords t = ws ++ [v] ∨ v = [] ∧ s.topWords t = ws) := by
  have hcomma : Tame [','] := by decide
  obtain ⟨ws, v, hnew, hold⟩ : ∃ ws v, s.topWords (t ++ [',']) = ws ++ [v ++ [',']] ∧
      (s.topWords t = ws ++ [v] ∨ v = [] ∧ s.topWords t = ws) :=
    exists_wordsAfter_snoc ht rfl rfl
  refine ⟨ws, v, ?_, hold⟩
  rw [show t ++ (", ".toList ++ u) = (t ++ [',']) ++ ' ' :: u by simp,
    topWords_append_blank (ht.append hcomma.neutral.1) rfl, hnew, List.append_assoc]
  rfl

/-- The first word of texts with a comma and a blank between them is that of the first text, or has
the comma. -/
theorem head_topWords_comma (ht : s.Balanced t) (u : Text) :
    ∀ w ∈ (s.topWords (t ++ (", ".toList ++ u))).head?, w ∈ (s.topWords t).head? ∨ ',' ∈ w := by
  obtain ⟨ws, v, hnew, hold⟩ := topWords_comma ht u
  rw [hnew]
  cases ws with
  | nil => exact fun w hw => .inr (Option.some.inj hw ▸ List.mem_append_right v List.mem_cons_self)
  | cons a ws =>
    refine fun w hw => .inl (Option.some.inj hw ▸ ?_)
    rcases hold with he | ⟨-, he⟩ <;> rw [he] <;> rfl

/-- Texts with a comma and a blank between them. -/
theorem Keyless.comma (ht : s.Keyless t) (hu : s.Keyless u) :
    s.Keyless (t ++ (", ".toList ++ u)) := by
  have hcomma : Tame ", ".toList := by decide
  obtain ⟨ws, v, hnew, hold⟩ := topWords_comma ht.balanced u
  refine ⟨ht.balanced.append (hcomma.neutral.1.append hu.balanced), ?_⟩
  have hws : NoKeyword ws := by
    rcases hold with he | ⟨-, he⟩
    · exact (he ▸ ht.noKeyword).of_append_left
    · exact he ▸ ht.noKeyword
  have hinert : Inert (v ++ [',']) := .of_mem (List.mem_append_right v List.mem_cons_self) (by decide)
  exact hnew ▸ noKeyword_append hws hinert hu.noKeyword

/-- Texts with a word between them that is no part of a keyword. -/
theorem Keyless.blank_word (ht : s.Keyless t) (hw : s.Whole w) (hi : Inert w) (hu : s.Keyless u) :
    s.Keyless (t ++ ' ' :: (w ++ ' ' :: u)) := by
  have hword := balanced_space.append (hw.balanced.append (balanced_space.append hu.balanced))
  refine ⟨ht.balanced.append hword, ?_⟩
  rw [topWords_append_blank ht.balanced rfl, topWords_append_blank hw.balanced rfl, hw.topWords]
  exact noKeyword_append ht.noKeyword hi hu.noKeyword

/-- A text after a word that is no part of a keyword. -/
theorem Keyless.word_blank (hw : s.Whole w) (hi : Inert w) (hu : s.Keyless u) :
    s.Keyless (w ++ ' ' :: u) := by
  refine ⟨hw.balanced.append (balanced_space.append hu.balanced), ?_⟩
  rw [topWords_append_blank hw.balanced rfl, hw.topWords]
  exact noKeyword_append noKeyword_nil hi hu.noKeyword

/-- A text between parentheses. -/
theorem Keyless.enclosed (h : s.Balanced t) : s.Keyless ('(' :: (t ++ [')'])) :=
  Whole.keyless ⟨nofun, h.enclosed, h.unbroken_enclosed⟩ (.of_mem List.mem_cons_self (by decide))

/-! ## Lists of texts -/

theorem intercalate_append_cons (sep t u : Text) (ts : List Text) :
    sep.intercalate ((t ++ u) :: ts) = t ++ sep.intercalate (u :: ts) := by
  induction t with
  | nil => rfl
  | cons c t ih => exact List.intercalate_cons_cons_left.trans (congrArg _ ih)

/-- Some texts in a row can be glued together before the others are. -/
theorem intercalate_merge {sep : Text} {us vs : List Text} (hne : ts ≠ []) :
    sep.intercalate (us ++ ts ++ vs) = sep.intercalate (us ++ [sep.intercalate ts] ++ vs) := by
  induction us with
  | nil =>
    induction ts with
    | nil => exact absurd rfl hne
    | cons t ts ih =>
      cases ts with
      | nil => rw [List.intercalate_singleton]
      | cons u ts =>
        have ih := ih nofun
        simp only [List.nil_append, List.cons_append] at ih ⊢
        rw [List.intercalate_cons_cons, ih, List.intercalate_cons_cons, intercalate_append_cons]
  | cons u us ih =>
    have hleft : us ++ ts ++ vs ≠ [] := by simp [hne]
    have hright : us ++ [sep.intercalate ts] ++ vs ≠ [] := by simp
    simp only [List.cons_append]
    rw [List.intercalate_cons_of_ne_nil hleft, List.intercalate_cons_of_ne_nil hright, ih]

/-- What holds of texts and of two texts that are glued together holds of a list of texts. -/
theorem intercalate_induction {P : Text → Prop} {sep : Text}
    (hglue : ∀ t u, P t → P u → P (t ++ (sep ++ u))) (hne : ts ≠ []) (h : ∀ t ∈ ts, P t) :
    P (sep.intercalate ts) := by
  induction ts with
  | nil => exact absurd rfl hne
  | cons t ts ih =>
    obtain ⟨ht, hts⟩ := List.forall_mem_cons.1 h
    cases ts with
    | nil => simpa using ht
    | cons u ts =>
      rw [List.intercalate_cons_cons, List.append_assoc]
      exact hglue t _ ht (ih nofun hts)

theorem balanced_intercalate {sep : Text} (hsep : s.Balanced sep) (h : ∀ t ∈ ts, s.Balanced t) :
    s.Balanced (sep.intercalate ts) := by
  by_cases hne : ts = []
  · rw [hne]
    exact balanced_nil
  · exact intercalate_induction (fun t u ht hu => ht.append (hsep.append hu)) hne h

/-- Neutral text between texts does not add to their placeholders. -/
theorem count_intercalate {sep : Text} (hsep : s.Neutral sep) (h : ∀ t ∈ ts, s.Balanced t) :
    s.count (sep.intercalate ts) = (ts.map s.count).sum := by
  induction ts with
  | nil => rfl
  | cons t ts ih =>
    obtain ⟨ht, hts⟩ := List.forall_mem_cons.1 h
    cases ts with
    | nil => simp
    | cons u ts =>
      rw [List.intercalate_cons_cons, List.append_assoc, count_append ht.run,
        count_append hsep.1.run, hsep.2, ih hts, Nat.zero_add]
      rfl

theorem Keyless.list (hne : ts ≠ []) (h : ∀ t ∈ ts, s.Keyless t) :
    s.Keyless (", ".toList.intercalate ts) :=
  intercalate_induction (fun _ _ => Keyless.comma) hne h

theorem whole_of_all (hne : w ≠ []) (h : w.all isNameChar = true) : s.Whole w :=
  .of_isNameChar hne (List.all_eq_true.1 h)

theorem Keyless.and (ht : s.Keyless t) (hu : s.Keyless u) :
    s.Keyless (t ++ (" AND ".toList ++ u)) := by
  have hand : s.Whole "AND".toList := whole_of_all nofun rfl
  exact ht.blank_word hand (fun c => by cases c <;> decide) hu

/-- The conditions of a clause. -/
theorem Keyless.conjunction (hne : ts ≠ []) (h : ∀ t ∈ ts, s.Keyless t) :
    s.Keyless (QueryBuilder.conjunction ts) := by
  rw [QueryBuilder.conjunction.eq_def]
  split
  · exact h _ List.mem_cons_self
  · refine intercalate_induction (fun _ _ => Keyless.and) (by simpa using hne) fun u hu => ?_
    obtain ⟨t, ht, rfl⟩ := List.mem_map.1 hu
    exact .enclosed (h t ht).balanced

theorem count_enclosed (h : s.Balanced t) : s.count ('(' :: (t ++ [')'])) = s.count t := by
  have hopen : s.count (['('] ++ (t ++ [')'])) = s.count ['('] + s.count (t ++ [')']) :=
    count_append rfl
  have hclose : s.count (t ++ [')']) = s.count t + s.count [')'] := count_append h.run
  rw [show '(' :: (t ++ [')']) = ['('] ++ (t ++ [')']) from rfl, hopen, hclose,
    count_eq_zero (t := ['(']) (by decide), count_eq_zero (t := [')']) (by decide), Nat.zero_add,
    Nat.add_zero]

theorem count_conjunction (h : ∀ t ∈ ts, s.Balanced t) :
    s.count (QueryBuilder.conjunction ts) = (ts.map s.count).sum := by
  have hand : Tame " AND ".toList := by decide
  rw [QueryBuilder.conjunction.eq_def]
  split
  · simp
  · rw [count_intercalate hand.neutral, List.map_map]
    · exact congrArg List.sum (List.map_congr_left fun t ht => count_enclosed (h t ht))
    · intro u hu
      obtain ⟨t, ht, rfl⟩ := List.mem_map.1 hu
      exact (h t ht).enclosed

/-! ## Joins -/

/-- The text is a join: the words that introduce it, and a text that can stand in a clause. -/
def IsJoin (s : Scanner) (t : Text) : Prop :=
  ∃ u, s.Keyless u ∧ (t = "LEFT JOIN ".toList ++ u ∨ t = "INNER JOIN ".toList ++ u)

theorem Keyless.join (ht : s.Keyless t) (hu : s.IsJoin u) : s.Keyless (t ++ ([' '] ++ u)) := by
  have hjoin : s.Whole "JOIN".toList := whole_of_all nofun rfl
  have hleft : s.Whole "LEFT".toList := whole_of_all nofun rfl
  have hinner : s.Whole "INNER".toList := whole_of_all nofun rfl
  obtain ⟨v, hv, hu⟩ := hu
  have hrest := hv.word_blank hjoin fun c => by cases c <;> decide
  rcases hu with rfl | rfl
  · exact ht.blank_word hleft (fun c => by cases c <;> decide) hrest
  · exact ht.blank_word hinner (fun c => by cases c <;> decide) hrest

/-- A list of sources with joins after it. -/
theorem Keyless.joins (ht : s.Keyless t) (h : ∀ u ∈ ts, s.IsJoin u) :
    s.Keyless ([' '].intercalate (t :: ts)) := by
  induction ts generalizing t with
  | nil => simpa using ht
  | cons u ts ih =>
    obtain ⟨hu, hts⟩ := List.forall_mem_cons.1 h
    rw [List.intercalate_cons_cons, ← intercalate_append_cons, List.append_assoc]
    exact ih (ht.join hu) hts

end Scanner

/-! ## Texts that say something -/

theorem Text.trim_ne_nil : Text.trim t ≠ [] ↔ ∃ c ∈ t, isBlank c = false := by
  obtain ⟨l, r, ht, hl, hr⟩ := Text.exists_trim t
  constructor
  · intro hne
    obtain ⟨c, u, hu⟩ := List.exists_cons_of_ne_nil hne
    refine ⟨c, ?_, Text.isBlank_of_trim hu⟩
    rw [ht, hu]
    simp
  · rintro ⟨c, hc, hblank⟩ hnone
    rw [ht, hnone, List.append_nil, List.mem_append] at hc
    rw [hc.elim (hl c) (hr c)] at hblank
    cases hblank

theorem Text.trim_append_ne_nil (h : Text.trim t ≠ []) (u : Text) : Text.trim (t ++ u) ≠ [] := by
  obtain ⟨c, hc, hblank⟩ := Text.trim_ne_nil.1 h
  exact Text.trim_ne_nil.2 ⟨c, List.mem_append_left _ hc, hblank⟩

/-- What is glued together from texts that say something says something. -/
theorem trim_intercalate_ne_nil {sep : Text} (hne : ts ≠ []) (h : ∀ t ∈ ts, Text.trim t ≠ []) :
    Text.trim (sep.intercalate ts) ≠ [] := by
  refine Scanner.intercalate_induction (fun t u ht _ => ?_) hne h
  exact Text.trim_append_ne_nil ht _

theorem trim_conjunction_ne_nil (hne : ts ≠ []) (h : ∀ t ∈ ts, Text.trim t ≠ []) :
    Text.trim (QueryBuilder.conjunction ts) ≠ [] := by
  rw [QueryBuilder.conjunction.eq_def]
  split
  · exact h _ List.mem_cons_self
  · refine trim_intercalate_ne_nil (by simpa using hne) fun u hu => ?_
    obtain ⟨t, -, rfl⟩ := List.mem_map.1 hu
    exact Text.trim_ne_nil.2 ⟨'(', List.mem_cons_self, rfl⟩

end ObjectQuery
