import ObjectQuery.Proofs.Text.Names
import ObjectQuery.Proofs.Text.Words

/-! # Conjuncts of a condition

The words of a balanced text can be read one character after the other (`Scanner.topWords`), so the
words of texts with a blank between them are the words of each. A text between parentheses and a
literal are one word, whatever stands in them. The conjuncts of a condition are what its words `AND`
leave.

* `Scanner.words_eq_topWords`: the words of a text;
* `Scanner.Unbroken`: texts that are one word;
* `Scanner.Demands`: a condition demands one of its conjuncts;
* `Scanner.Conjunctive`: conditions without alternatives. -/

namespace ObjectQuery
namespace Scanner

variable {s : Scanner} {t u v w : Text} {r r' : Reading} {c : Char} {current : Option Text}

/-! ## Words -/

/-- The words of the rest of a text; the part before it is read as `r`, and `current` is the word that
it leaves unfinished. -/
def wordsAfter (s : Scanner) : Reading → Option Text → Text → List Text
  | _, current, [] => current.toList
  | r, current, c :: t =>
    if r = .start ∧ isBlank c = true then current.toList ++ wordsAfter s .start none t
    else (r.next s c).elim [] fun r => wordsAfter s r (some (current.getD [] ++ [c])) t

/-- The words of a balanced text. -/
def topWords (s : Scanner) (t : Text) : List Text := s.wordsAfter .start none t

theorem isBlank_of_isQuote (h : isQuote c = true) : isBlank c = false := by
  refine Bool.eq_false_of_not_eq_true fun hb => ?_
  rw [(isPlain_of_isBlank hb).1] at h
  cases h

theorem wordsAfter_blank (hc : isBlank c = true) :
    s.wordsAfter .start current (c :: t) = current.toList ++ s.topWords t :=
  if_pos ⟨rfl, hc⟩

theorem wordsAfter_next (hc : r = .start → isBlank c = false) (hn : r.next s c = some r') :
    s.wordsAfter r current (c :: t) = s.wordsAfter r' (some (current.getD [] ++ [c])) t := by
  have hneg : ¬(r = .start ∧ isBlank c = true) := by
    rintro ⟨hr, hb⟩
    rw [hc hr] at hb
    cases hb
  rw [wordsAfter, if_neg hneg, hn]
  rfl

/-- The words that the scan finds from a point on are those of the rest of the text, be it inside a
word or between words. -/
def ReadsWords (s : Scanner) (t : Text) (st : LiteralState) (opens : List Nat) (pos : Nat)
    (rest : Text) : Prop :=
  ∀ current : Option Nat, (∀ start ∈ current, start ≤ pos) →
    (current = none → st = .outside ∧ opens = []) →
      (wordsFrom t.length current (s.scanFrom st opens pos rest).marks).map (·.slice t) =
        s.wordsAfter ⟨st.quoting, opens.length⟩
          (current.map fun start => (Span.mk start pos).slice t) rest

/-- A word goes on with the next character. -/
theorem ReadsWords.word {st st' : LiteralState} {opens opens' : List Nat} {pos start : Nat}
    {rest : Text} (h : s.ReadsWords t st' opens' (pos + 1) rest)
    (hat : s.At t st opens pos (c :: rest))
    (hn : Reading.next s ⟨st.quoting, opens.length⟩ c = some ⟨st'.quoting, opens'.length⟩)
    (hc : Reading.mk st.quoting opens.length = .start → isBlank c = false) (hle : start ≤ pos) :
    (wordsFrom t.length (some start) (s.scanFrom st' opens' (pos + 1) rest).marks).map (·.slice t) =
      s.wordsAfter ⟨st.quoting, opens.length⟩ (some ((Span.mk start pos).slice t)) (c :: rest) := by
  have hrest := h (some start) (by simpa using Nat.le_succ_of_le hle) (by simp)
  rw [wordsAfter_next hc hn, hrest, Option.map_some, hat.slice_succ hle]
  rfl

/-- A word begins with the next character. -/
theorem ReadsWords.first {st st' : LiteralState} {opens opens' : List Nat} {pos : Nat}
    {rest : Text} (h : s.ReadsWords t st' opens' (pos + 1) rest)
    (hat : s.At t st opens pos (c :: rest))
    (hn : Reading.next s ⟨st.quoting, opens.length⟩ c = some ⟨st'.quoting, opens'.length⟩)
    (hc : isBlank c = false) :
    (wordsFrom t.length (some pos) (s.scanFrom st' opens' (pos + 1) rest).marks).map (·.slice t) =
      s.wordsAfter ⟨st.quoting, opens.length⟩ none (c :: rest) := by
  rw [h.word hat hn (fun _ => hc) (Nat.le_refl pos), wordsAfter_next (fun _ => hc) hn,
    wordsAfter_next (fun _ => hc) hn, slice_self]
  rfl

theorem readsWords {st : LiteralState} {opens : List Nat} {pos : Nat} {rest : Text}
    (hat : s.At t st opens pos rest) (hf : (s.scanFrom st opens pos rest).fault = none) :
    s.ReadsWords t st opens pos rest := by
  induction rest generalizing st opens pos with
  | nil =>
    intro current _ _
    obtain ⟨rfl, hq, rfl⟩ := hat.last hf
    have hmarks : (s.scanFrom st [] t.length []).marks = [] := by cases st <;> rfl
    rw [hmarks]
    cases current <;> rfl
  | cons c rest ih =>
    intro current hle hnone
    cases s.step rest opens pos c hat.proper with
    | @literal inner hp hst hc hn hscan =>
      rw [hscan] at hf ⊢
      cases current with
      | none => exact absurd (hnone rfl).1 hst
      | some start =>
        refine (ih (hat.next hp hn) hf).word hat hn (fun hr => ?_) (hle start rfl)
        exact isBlank_of_isQuote (hc (congrArg Reading.quoting hr))
    | unexpected _ _ _ hscan =>
      rw [hscan] at hf
      cases hf
    | mark hp hq hplain hopen _ hn hscan =>
      rw [hscan] at hf ⊢
      have hrest := ih (hat.next hp hn) hf
      rw [Scan.visit]
      cases hb : isBlank c with
      | false =>
        rw [wordsFrom_word hb]
        cases current with
        | none => exact hrest.first hat hn hb
        | some start => exact hrest.word hat hn (fun _ => hb) (hle start rfl)
      | true =>
        have hc := isPlain_of_isBlank hb
        obtain ⟨rfl, rfl⟩ := hplain hc
        obtain rfl := hopen hc.2.2
        cases opens with
        | nil =>
          have hstart : Reading.mk st.quoting ([] : List Nat).length = .start := by
            rw [hq]
            rfl
          have hwords := hrest none (by simp) fun _ => ⟨rfl, rfl⟩
          rw [hstart, wordsAfter_blank hb]
          cases current with
          | none =>
            rw [wordsFrom_gap hb]
            exact hwords
          | some start =>
            rw [wordsFrom_stop hb rfl]
            exact congrArg (_ :: ·) hwords
        | cons n outer =>
          cases current with
          | none => cases (hnone rfl).2
          | some start =>
            rw [wordsFrom_inner hb rfl]
            refine hrest.word hat hn (fun hr => ?_) (hle start rfl)
            cases congrArg Reading.depth hr

theorem words_eq_topWords (h : s.Balanced t) : s.words t = .ok (s.topWords t) := by
  have hmarks : s.marks t = .ok (s.scan t).marks := marks_eq_ok.2 ⟨h, rfl⟩
  have hf : (s.scanFrom .outside [] 0 t).fault = none := (scanFrom_fault_iff .outside).2 h
  have hwords := readsWords .start hf none (by simp) fun _ => ⟨rfl, rfl⟩
  rw [words, wordSpans, hmarks]
  exact congrArg Except.ok hwords

/-! ## Texts one after the other -/

theorem wordsAfter_append_blank (h : s.read r u = some .start) (hc : isBlank c = true) :
    s.wordsAfter r current (u ++ c :: v) = s.wordsAfter r current u ++ s.topWords v := by
  induction u generalizing r current with
  | nil =>
    cases h
    exact wordsAfter_blank hc
  | cons d u ih =>
    obtain ⟨m, hm, h⟩ := Option.bind_eq_some_iff.1 h
    by_cases hd : r = .start ∧ isBlank d = true
    · obtain ⟨rfl, hd⟩ := hd
      cases (next_plain (isPlain_of_isBlank hd)).symm.trans hm
      rw [List.cons_append, wordsAfter_blank hd, wordsAfter_blank hd, List.append_assoc]
      exact congrArg _ (ih h)
    · have hd : r = .start → isBlank d = false := fun hr =>
        Bool.eq_false_of_not_eq_true fun hb => hd ⟨hr, hb⟩
      rw [List.cons_append, wordsAfter_next hd hm, wordsAfter_next hd hm]
      exact ih h

theorem topWords_append_blank (h : s.Balanced u) (hc : isBlank c = true) :
    s.topWords (u ++ c :: v) = s.topWords u ++ s.topWords v :=
  wordsAfter_append_blank h hc

/-! ## Single words -/

theorem isBlank_of_isNameChar (h : isNameChar c = true) : isBlank c = false := by
  refine Bool.eq_false_of_not_eq_true fun hb => ?_
  simp only [isNameChar, Char.isAlphanum, Char.isAlpha, Char.isUpper, Char.isLower, Char.isDigit,
    Bool.or_eq_true, Bool.and_eq_true, decide_eq_true_eq, beq_iff_eq, ge_iff_le,
    UInt32.le_iff_toNat_le] at h
  simp only [isBlank, blankRanges, List.any_cons, List.any_nil, Bool.or_false, Bool.or_eq_true,
    Bool.and_eq_true, decide_eq_true_eq] at hb
  have hval : c.val.toNat = c.toNat := rfl
  have hupper : 'A'.val.toNat = 65 ∧ 'Z'.val.toNat = 90 := ⟨rfl, rfl⟩
  have hlower : 'a'.val.toNat = 97 ∧ 'z'.val.toNat = 122 := ⟨rfl, rfl⟩
  have hdigit : '0'.val.toNat = 48 ∧ '9'.val.toNat = 57 := ⟨rfl, rfl⟩
  have hunderscore : '_'.toNat = 95 := rfl
  rcases h with ((h | h) | h) | rfl <;> omega

/-- From the reading `r` on, no blank of the text stands outside of literals and parentheses. -/
def Unbroken (s : Scanner) (r : Reading) (t : Text) : Prop :=
  ∀ pre c post, t = pre ++ c :: post → s.read r pre = some .start → isBlank c = false

theorem Unbroken.tail (h : s.Unbroken r (c :: t)) (hn : r.next s c = some r') :
    s.Unbroken r' t := by
  intro pre d post ht hr
  refine h (c :: pre) d post (congrArg (c :: ·) ht) ?_
  rw [read_cons, hn]
  exact hr

theorem wordsAfter_unbroken (h : s.Unbroken r t) (hr : s.read r t = some r') :
    s.wordsAfter r (some w) t = [w ++ t] := by
  induction t generalizing r w with
  | nil => rw [List.append_nil]; rfl
  | cons c t ih =>
    obtain ⟨m, hm, hr⟩ := Option.bind_eq_some_iff.1 hr
    have hc : r = .start → isBlank c = false := by
      rintro rfl
      exact h [] c t rfl rfl
    rw [wordsAfter_next hc hm, ih (h.tail hm) hr, Option.getD_some, List.append_assoc]
    rfl

theorem topWords_unbroken (hne : t ≠ []) (h : s.Unbroken .start t) (hb : s.Balanced t) :
    s.topWords t = [t] := by
  cases t with
  | nil => exact absurd rfl hne
  | cons c t =>
    obtain ⟨m, hm, hr⟩ := Option.bind_eq_some_iff.1 hb
    rw [topWords, wordsAfter_next (fun _ => h [] c t rfl rfl) hm]
    exact wordsAfter_unbroken (h.tail hm) hr

theorem unbroken_of_forall (h : ∀ c ∈ t, isBlank c = false) : s.Unbroken r t := by
  rintro pre c post rfl -
  exact h c (List.mem_append_right _ List.mem_cons_self)

theorem Unbroken.append (hu : s.Unbroken r u) (hr : s.read r u = some r') (hv : s.Unbroken r' v) :
    s.Unbroken r (u ++ v) := by
  intro pre c post ht hpre
  rcases List.append_eq_append_iff.1 ht with ⟨mid, rfl, hmid⟩ | ⟨mid, rfl, hmid⟩
  · obtain ⟨m, hm, hpre⟩ := read_append_iff.1 hpre
    cases hr.symm.trans hm
    exact hv mid c post hmid hpre
  · cases mid with
    | nil =>
      rw [List.append_nil] at hr
      cases hr.symm.trans hpre
      exact hv [] c post hmid.symm rfl
    | cons d mid =>
      obtain ⟨rfl, -⟩ := List.cons.inj hmid
      exact hu pre c mid rfl hpre

/-- The first character of a text, read where something is open, may be a blank. -/
theorem unbroken_singleton (h : r.quoting ≠ .outside) : s.Unbroken r [c] := by
  intro pre d post ht hr
  cases pre with
  | nil => exact absurd (congrArg Reading.quoting (Option.some.inj hr)) h
  | cons e pre => simp at ht

theorem Balanced.unbroken_deeper (h : s.Balanced u) (d : Nat) :
    s.Unbroken ⟨.outside, d + 1⟩ u := by
  rintro pre c post rfl hr
  obtain ⟨m, hm, -⟩ := read_append_iff.1 h
  have hdeeper := read_deeper hm (d + 1)
  rw [Reading.start, Nat.zero_add] at hdeeper
  have hdepth := congrArg Reading.depth (Option.some.inj (hr.symm.trans hdeeper))
  exact absurd hdepth.symm (Nat.succ_ne_zero _)

/-- Between parentheses a balanced text is one word. -/
theorem Balanced.unbroken_enclosed (h : s.Balanced u) :
    s.Unbroken .start ('(' :: (u ++ [')'])) := by
  have hopen : s.Unbroken .start ['('] := unbroken_of_forall (List.forall_mem_singleton.2 rfl)
  have hclose : s.Unbroken ⟨.outside, 1⟩ [')'] :=
    unbroken_of_forall (List.forall_mem_singleton.2 rfl)
  have hread : s.read ⟨.outside, 1⟩ u = some ⟨.outside, 1⟩ := h.read 1
  exact hopen.append rfl ((h.unbroken_deeper 0).append hread hclose)

/-- The text is one word, and neither `AND` nor `OR`. -/
structure Single (s : Scanner) (t : Text) : Prop where
  balanced : s.Balanced t
  words : s.topWords t = [t]
  noOr : t.isWord "OR" = false
  noAnd : t ≠ "AND".toList

/-- A word is neither when it has a character that those do not have. -/
theorem Unbroken.single (h : s.Unbroken .start t) (hb : s.Balanced t) (hc : c ∈ t)
    (hne : c.toLower ∉ ['a', 'n', 'd', 'o', 'r']) : s.Single t := by
  have hmem : c.toLower ∈ t.map Char.toLower := List.mem_map_of_mem hc
  refine ⟨hb, topWords_unbroken (List.ne_nil_of_mem hc) h hb, ?_, ?_⟩
  · refine Bool.eq_false_of_not_eq_true fun hor => hne ?_
    rw [Text.isWord, Text.sameWord, beq_iff_eq] at hor
    rw [hor] at hmem
    have hletters : ['o', 'r'] ⊆ ['a', 'n', 'd', 'o', 'r'] := by decide
    exact hletters hmem
  · rintro rfl
    have hletters : ['a', 'n', 'd'] ⊆ ['a', 'n', 'd', 'o', 'r'] := by decide
    exact hne (hletters hmem)

theorem Balanced.single_enclosed (h : s.Balanced u) : s.Single ('(' :: (u ++ [')'])) :=
  h.unbroken_enclosed.single h.enclosed List.mem_cons_self (by decide)

/-! ## Conjuncts -/

/-- The conjuncts of a balanced condition, each as the list of its words. -/
def conjuncts (s : Scanner) (t : Text) : List (List Text) := (s.topWords t).splitOn "AND".toList

/-- Outside of literals and parentheses the condition has no alternatives, and the given words are
between two of its words `AND`, before the first, or after the last one. -/
def Demands (s : Scanner) (condition : Text) (conjunct : List Text) : Prop :=
  ∃ ws, s.words condition = .ok ws ∧ (∀ w ∈ ws, w.isWord "OR" = false) ∧
    conjunct ∈ ws.splitOn "AND".toList

/-- The text is balanced, and outside of literals and parentheses it has no alternatives. -/
structure Conjunctive (s : Scanner) (t : Text) : Prop where
  balanced : s.Balanced t
  noOr : ∀ w ∈ s.topWords t, w.isWord "OR" = false

theorem Conjunctive.demands {ws : List Text} (h : s.Conjunctive t) (hws : ws ∈ s.conjuncts t) :
    s.Demands t ws :=
  ⟨_, words_eq_topWords h.balanced, h.noOr, hws⟩

theorem conjunctive_nil : s.Conjunctive [] := ⟨balanced_nil, nofun⟩

theorem Single.conjunctive (h : s.Single t) : s.Conjunctive t := by
  refine ⟨h.balanced, fun w hw => ?_⟩
  rw [h.words] at hw
  rw [List.mem_singleton.1 hw]
  exact h.noOr

theorem Conjunctive.append_blank (hu : s.Conjunctive u) (hv : s.Conjunctive v)
    (hc : isBlank c = true) : s.Conjunctive (u ++ c :: v) := by
  have hblank : s.Balanced [c] := balanced_plain (List.forall_mem_singleton.2 (isPlain_of_isBlank hc))
  refine ⟨hu.balanced.append (hblank.append hv.balanced), fun w hw => ?_⟩
  rw [topWords_append_blank hu.balanced hc, List.mem_append] at hw
  exact hw.elim (hu.noOr w) (hv.noOr w)

theorem topWords_and (h : s.Balanced u) :
    s.topWords (u ++ (" AND ".toList ++ v)) = s.topWords u ++ "AND".toList :: s.topWords v := by
  have hall : "AND".toList.all isNameChar = true := rfl
  have hletters := List.all_eq_true.1 hall
  have hand : s.Balanced "AND".toList := (tame_of_isNameChar hletters).neutral.1
  have hword : s.topWords "AND".toList = ["AND".toList] :=
    topWords_unbroken nofun (unbroken_of_forall fun c hc => isBlank_of_isNameChar (hletters c hc))
      hand
  have hrest := topWords_append_blank (v := v) hand (c := ' ') rfl
  rw [hword] at hrest
  exact (topWords_append_blank h (c := ' ') rfl).trans (congrArg (s.topWords u ++ ·) hrest)

theorem conjuncts_and (h : s.Balanced u) :
    s.conjuncts (u ++ (" AND ".toList ++ v)) = s.conjuncts u ++ s.conjuncts v := by
  rw [conjuncts, topWords_and h]
  exact List.splitOnP_append_cons _ _ (beq_self_eq_true _)

theorem Conjunctive.append_and (hu : s.Conjunctive u) (hv : s.Conjunctive v) :
    s.Conjunctive (u ++ (" AND ".toList ++ v)) := by
  have htame : Tame " AND ".toList := by decide
  have hand : s.Balanced " AND ".toList := htame.neutral.1
  refine ⟨hu.balanced.append (hand.append hv.balanced), fun w hw => ?_⟩
  rw [topWords_and hu.balanced, List.mem_append, List.mem_cons] at hw
  rcases hw with hw | rfl | hw
  · exact hu.noOr w hw
  · rfl
  · exact hv.noOr w hw

theorem splitOn_and {ws : List Text} (h : ∀ w ∈ ws, w ≠ "AND".toList) :
    ws.splitOn "AND".toList = [ws] :=
  List.splitOnP_eq_singleton fun w hw => by simpa using h w hw

theorem Single.conjuncts (h : s.Single t) : s.conjuncts t = [[t]] := by
  rw [Scanner.conjuncts, h.words]
  exact splitOn_and (List.forall_mem_singleton.2 h.noAnd)

theorem Single.topWords_comparison {op : Text} (hu : s.Single u) (hop : s.Single op)
    (hv : s.Single v) : s.topWords (u ++ ' ' :: (op ++ ' ' :: v)) = [u, op, v] := by
  rw [topWords_append_blank hu.balanced rfl, topWords_append_blank hop.balanced rfl, hu.words,
    hop.words, hv.words]
  rfl

/-- A comparison is a conjunct. -/
theorem Single.conjuncts_comparison {op : Text} (hu : s.Single u) (hop : s.Single op)
    (hv : s.Single v) : s.conjuncts (u ++ ' ' :: (op ++ ' ' :: v)) = [[u, op, v]] := by
  rw [Scanner.conjuncts, hu.topWords_comparison hop hv]
  refine splitOn_and fun w hw => ?_
  simp only [List.mem_cons, List.not_mem_nil, or_false] at hw
  rcases hw with rfl | rfl | rfl
  · exact hu.noAnd
  · exact hop.noAnd
  · exact hv.noAnd

end Scanner
end ObjectQuery
