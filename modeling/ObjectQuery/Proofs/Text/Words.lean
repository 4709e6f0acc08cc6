import ObjectQuery.Proofs.Text.Cuts

/-! # Where words and pieces stand

The words of a text and its pieces between delimiters begin and end where nothing is open, and
only blanks, respectively the delimiter, lie between them.

* `Scanner.wordSpans_between`: the words of a text;
* `Scanner.splitSpans_pieces`: the pieces of a text are separated by all delimiters in it that count;
* `Scanner.splitSpans_between`: how the pieces of a text follow one another. -/

namespace ObjectQuery
namespace Scanner

variable {s : Scanner} {t rest : Text} {st : LiteralState} {opens : List Nat} {pos lo hi : Nat}

/-- A text of blanks. -/
def Blank (t : Text) : Prop := ∀ c ∈ t, isBlank c = true

theorem Blank.neutral (h : Blank t) : s.Neutral t := ⟨balanced_blanks h, count_blanks h⟩

/-- A scan of `t` has come to the position `pos`, with `rest` to be read. -/
structure At (s : Scanner) (t : Text) (st : LiteralState) (opens : List Nat) (pos : Nat)
    (rest : Text) : Prop where
  length : pos + rest.length = t.length
  drop : t.drop pos = rest
  proper : st.Proper
  read : s.read .start (t.take pos) = some ⟨st.quoting, opens.length⟩

theorem At.start : s.At t .outside [] 0 t := ⟨by simp, rfl, trivial, rfl⟩

theorem At.take_succ {c : Char} (h : s.At t st opens pos (c :: rest)) :
    t.take (pos + 1) = t.take pos ++ [c] := by
  rw [List.take_add_one, ← List.head?_drop, h.drop]; rfl

theorem At.next {c : Char} {st' : LiteralState} {opens' : List Nat}
    (h : s.At t st opens pos (c :: rest)) (hp : st'.Proper)
    (hn : Reading.next s ⟨st.quoting, opens.length⟩ c = some ⟨st'.quoting, opens'.length⟩) :
    s.At t st' opens' (pos + 1) rest := by
  refine ⟨?_, ?_, hp, ?_⟩
  · rw [← h.length, List.length_cons]; omega
  · rw [← List.drop_drop, h.drop]; rfl
  · rw [h.take_succ, read_append, h.read, Option.bind_some, read_cons, hn]; rfl

theorem At.cut (h : s.At t st [] pos rest) (hq : st.quoting = .outside) : s.Cut t pos := by
  refine ⟨by rw [← h.length]; omega, ?_⟩
  have := h.read
  rwa [hq] at this

theorem At.last (h : s.At t st opens pos [])
    (hf : (s.scanFrom st opens pos []).fault = none) :
    pos = t.length ∧ st.quoting = .outside ∧ opens = [] := by
  have hr := (scanFrom_fault_iff h.proper).1 hf
  rw [read_nil, Option.some.injEq] at hr
  refine ⟨by simpa using h.length, congrArg Reading.quoting hr, ?_⟩
  exact List.length_eq_zero_iff.1 (congrArg Reading.depth hr)

theorem At.slice_succ {c : Char} (h : s.At t st opens pos (c :: rest)) (hlo : lo ≤ pos) :
    (Span.mk lo (pos + 1)).slice t = (Span.mk lo pos).slice t ++ [c] := by
  have hl := h.length
  rw [List.length_cons] at hl
  rw [Span.slice, Span.slice, h.take_succ, List.drop_append_of_le_length]
  simp only [List.length_take]
  omega

/-! ## Words -/

theorem wordsFrom_word {size : Nat} {current : Option Nat} {m : Mark} {ms : List Mark}
    (h : isBlank m.char = false) :
    wordsFrom size current (m :: ms) = wordsFrom size (some (current.getD m.pos)) ms := by
  cases current <;> simp [wordsFrom, h]

theorem wordsFrom_gap {size : Nat} {m : Mark} {ms : List Mark} (h : isBlank m.char = true) :
    wordsFrom size none (m :: ms) = wordsFrom size none ms := by
  simp [wordsFrom, h]

theorem wordsFrom_stop {size start : Nat} {m : Mark} {ms : List Mark}
    (h : isBlank m.char = true) (ht : m.top = true) :
    wordsFrom size (some start) (m :: ms) = ⟨start, m.pos⟩ :: wordsFrom size none ms := by
  simp [wordsFrom, h, ht]

theorem wordsFrom_inner {size start : Nat} {m : Mark} {ms : List Mark}
    (h : isBlank m.char = true) (ht : m.top = false) :
    wordsFrom size (some start) (m :: ms) = wordsFrom size (some start) ms := by
  simp [wordsFrom, h, ht]

/-- The words from the position `pos` on: between words, they follow after blanks; inside a word
that began at `start`, that word is completed first. -/
def WordsFrom (s : Scanner) (t : Text) (ms : List Mark) (st : LiteralState) (opens : List Nat)
    (pos : Nat) : Option Nat → Prop
  | none => st = .outside → opens = [] → ∀ lo, lo ≤ pos → Blank ((Span.mk lo pos).slice t) →
    s.Between Blank t lo (wordsFrom t.length none ms) t.length
  | some start => start < pos → s.Cut t start → ∃ stop ws,
    wordsFrom t.length (some start) ms = ⟨start, stop⟩ :: ws ∧ start ≤ stop ∧ s.Cut t stop ∧
      s.Between Blank t stop ws t.length

theorem WordsFrom.word {m : Mark} {ms : List Mark} {st' : LiteralState} {opens' : List Nat}
    {current : Option Nat} (hat : s.At t st opens m.pos rest) (hb : isBlank m.char = false)
    (ih : ∀ start, WordsFrom s t ms st' opens' (m.pos + 1) (some start)) :
    WordsFrom s t (m :: ms) st opens m.pos current := by
  cases current with
  | none =>
    rintro rfl rfl lo hlo hgap
    obtain ⟨stop, ws, hws, hle, hstop, hbetween⟩ :=
      ih m.pos (Nat.lt_succ_self _) (hat.cut rfl)
    rw [wordsFrom_word hb, Option.getD_none, hws]
    exact ⟨⟨hlo, hgap⟩, hle, hat.cut rfl, hstop, hbetween⟩
  | some start =>
    intro hlt hcut
    rw [wordsFrom_word hb, Option.getD_some]
    exact ih start (Nat.lt_succ_of_lt hlt) hcut

/-- The words found from any point of a scan on. -/
theorem wordsFrom_scanFrom (hat : s.At t st opens pos rest)
    (hf : (s.scanFrom st opens pos rest).fault = none) (current : Option Nat) :
    WordsFrom s t (s.scanFrom st opens pos rest).marks st opens pos current := by
  induction rest generalizing st opens pos current with
  | nil =>
    obtain ⟨rfl, hq, rfl⟩ := hat.last hf
    have hmarks : (s.scanFrom st [] t.length []).marks = [] := by cases st <;> rfl
    rw [hmarks]
    cases current with
    | none => exact fun _ _ lo hlo hgap => ⟨hlo, Nat.le_refl _, hgap⟩
    | some start =>
      intro hlt _
      have hcut := hat.cut hq
      refine ⟨t.length, [], rfl, Nat.le_of_lt hlt, hcut, Nat.le_refl _, Nat.le_refl _, ?_⟩
      simp [Blank, Span.slice]
  | cons c rest ih =>
    cases s.step rest opens pos c hat.proper with
    | literal hp hst _ hn hscan =>
      rw [hscan] at hf ⊢
      cases current with
      | none => exact fun h => absurd h hst
      | some start =>
        intro hlt hcut
        exact ih (hat.next hp hn) hf (some start) (Nat.lt_succ_of_lt hlt) hcut
    | unexpected _ _ _ hscan =>
      rw [hscan] at hf
      cases hf
    | mark hp hq hplain hopen _ hn hscan =>
      have hnext := hat.next hp hn
      rw [hscan] at hf ⊢
      cases hb : isBlank c with
      | false =>
        exact WordsFrom.word (m := ⟨pos, c, _⟩) hat hb fun start => ih hnext hf (some start)
      | true =>
        have hc := isPlain_of_isBlank hb
        obtain ⟨rfl, rfl⟩ := hplain hc
        obtain rfl := hopen hc.2.2
        have hgap : ∀ lo, lo ≤ pos → Blank ((Span.mk lo pos).slice t) →
            Blank ((Span.mk lo (pos + 1)).slice t) := by
          intro lo hlo hgap d hd
          rw [hat.slice_succ hlo, List.mem_append, List.mem_singleton] at hd
          rcases hd with hd | rfl
          · exact hgap d hd
          · exact hb
        cases current with
        | none =>
          rintro rfl rfl lo hlo hblank
          rw [Scan.visit, wordsFrom_gap hb]
          exact ih hnext hf none rfl rfl lo (Nat.le_succ_of_le hlo) (hgap lo hlo hblank)
        | some start =>
          intro hlt hcut
          cases opens with
          | nil =>
            rw [Scan.visit, wordsFrom_stop hb rfl]
            refine ⟨pos, _, rfl, Nat.le_of_lt hlt, hat.cut hq, ?_⟩
            refine ih hnext hf none rfl rfl pos (Nat.le_succ _) (hgap pos (Nat.le_refl _) ?_)
            simp [Blank, Span.slice]
          | cons n outer =>
            rw [Scan.visit, wordsFrom_inner hb rfl]
            exact ih hnext hf (some start) (Nat.lt_succ_of_lt hlt) hcut

/-- The words of a text follow one another after blanks. -/
theorem wordSpans_between {ws : List Span} (h : s.wordSpans t = .ok ws) :
    s.Balanced t ∧ s.Between Blank t 0 ws t.length := by
  unfold wordSpans at h
  cases hm : s.marks t with
  | error e => rw [hm] at h; cases h
  | ok ms =>
    rw [hm] at h
    cases h
    obtain ⟨hb, rfl⟩ := marks_eq_ok.1 hm
    refine ⟨hb, ?_⟩
    have hf : (s.scanFrom .outside [] 0 t).fault = none := (scanFrom_fault_iff .outside).2 hb
    refine wordsFrom_scanFrom .start hf none rfl rfl 0 (Nat.le_refl _) ?_
    simp [Blank, Span.slice]

/-! ## Runs of words -/

/-- Spans that follow one another after blanks, somewhere in a text. -/
def Run (s : Scanner) (t : Text) (ws : List Span) : Prop :=
  ∃ lo hi, s.Cut t lo ∧ s.Between Blank t lo ws hi

variable {ws ws' : List Span} {w first last : Span}

theorem wordSpans_run (h : s.wordSpans t = .ok ws) : s.Run t ws :=
  ⟨_, _, .zero, (wordSpans_between h).2⟩

theorem blank_nil : Blank [] := nofun

theorem Run.of_append_left (h : s.Run t (ws ++ ws')) : s.Run t ws := by
  obtain ⟨lo, hi, hlo, h⟩ := h
  obtain ⟨mid, h, -, -⟩ := h.split blank_nil hlo
  exact ⟨lo, mid, hlo, h⟩

theorem Run.of_append_right (h : s.Run t (ws ++ ws')) : s.Run t ws' := by
  obtain ⟨lo, hi, hlo, h⟩ := h
  obtain ⟨mid, -, hmid, h⟩ := h.split blank_nil hlo
  exact ⟨mid, hi, hmid, h⟩

theorem Run.of_isInfix (h : s.Run t ws) (hi : ws' <:+: ws) : s.Run t ws' := by
  obtain ⟨l, r, rfl⟩ := hi
  exact h.of_append_left.of_append_right

/-- The stretch of text that a run covers, with the placeholders of its words. -/
theorem Run.cover (h : s.Run t (first :: ws)) (hl : (first :: ws).getLast? = some last) :
    s.Cut t first.start ∧ s.Cut t last.stop ∧ first.start ≤ last.stop ∧
      (first :: ws).flatMap (s.ordinals t) = s.ordinals t ⟨first.start, last.stop⟩ := by
  obtain ⟨lo, hi, hlo, h⟩ := h
  have hb := h.shrink blank_nil hl
  obtain ⟨-, -, hfirst, -⟩ := h
  obtain ⟨hlast, hord⟩ := hb.ordinals (fun _ => Blank.neutral) hfirst
  exact ⟨hfirst, hlast, hb.le, hord⟩

/-! ## Pieces -/

/-- What lies between two pieces, and before the first and after the last one. -/
def Gap (d : Text) (g : Text) : Prop := g = [] ∨ g = d

variable {d : Text}

theorem Gap.neutral {g : Text} (hd : s.Neutral d) (h : Gap d g) : s.Neutral g := by
  rcases h with rfl | rfl
  · exact ⟨balanced_nil, rfl⟩
  · exact hd

theorem slice_self (t : Text) (k : Nat) : (Span.mk k k).slice t = [] := by simp [Span.slice]

theorem slice_delimiter {k : Nat} (h : d <+: t.drop k) :
    (Span.mk k (k + d.length)).slice t = d := by
  rw [Span.slice, List.drop_take, Nat.add_sub_cancel_left]
  exact (List.prefix_iff_eq_take.1 h).symm

/-- A delimiter of plain characters starts with no quote and no parenthesis. -/
theorem isPrefixOf_of_not_isPlain {c : Char} (hd : d ≠ []) (hp : ∀ c ∈ d, IsPlain c)
    (hc : ¬ IsPlain c) : d.isPrefixOf (c :: rest) = false := by
  cases d with
  | nil => exact absurd rfl hd
  | cons e d =>
    rw [List.isPrefixOf_cons_cons, Bool.and_eq_false_iff]
    refine .inl (beq_eq_false_iff_ne.2 ?_)
    rintro rfl
    exact hc (hp _ List.mem_cons_self)

/-- The delimiter does not occur in the text where nothing is open. -/
def Uncut (s : Scanner) (d t : Text) : Prop :=
  ∀ pre post, t = pre ++ (d ++ post) → ¬ s.Balanced pre

/-- The pieces of a text from the position `lo` on. The delimiter follows each but the last, and
occurs in none of them where nothing is open. -/
inductive Pieces (s : Scanner) (d t : Text) : Nat → List Span → Prop
  | last {lo : Nat} (hlo : s.Cut t lo) (hu : s.Uncut d ((Span.mk lo t.length).slice t)) :
    Pieces s d t lo [⟨lo, t.length⟩]
  | cons {lo cut : Nat} {ws : List Span} (hlo : s.Cut t lo) (hle : lo ≤ cut) (hcut : s.Cut t cut)
    (hu : s.Uncut d ((Span.mk lo cut).slice t)) (hd : d <+: t.drop cut)
    (h : Pieces s d t (cut + d.length) ws) : Pieces s d t lo (⟨lo, cut⟩ :: ws)

/-- From `lo` up to `hi` the delimiter occurs at no place where nothing is open. -/
def Clear (s : Scanner) (d t : Text) (lo hi : Nat) : Prop :=
  ∀ k, lo ≤ k → k < hi → s.Cut t k → ¬ d <+: t.drop k

theorem Clear.succ (h : s.Clear d t lo pos) (hpos : lo ≤ pos → s.Cut t pos → ¬ d <+: t.drop pos) :
    s.Clear d t lo (pos + 1) := by
  intro k hlo hk hcut
  rcases Nat.lt_succ_iff_lt_or_eq.1 hk with hk | rfl
  · exact h k hlo hk hcut
  · exact hpos hlo hcut

theorem Clear.uncut (h : s.Clear d t lo hi) (hd : d ≠ []) (hlo : s.Cut t lo) (hle : lo ≤ hi)
    (hhi : hi ≤ t.length) : s.Uncut d ((Span.mk lo hi).slice t) := by
  intro pre post he hpre
  have htake : t.take hi = t.take lo ++ pre ++ (d ++ post) := by
    rw [← take_append_slice hle, he, List.append_assoc]
  have hlen : (t.take lo ++ pre).length = lo + pre.length := by
    rw [List.length_append, List.length_take, Nat.min_eq_left hlo.le_length]
  have hfront : t.take (lo + pre.length) = t.take lo ++ pre := by
    rw [← hlen, take_length_of_take_eq htake]
  have hbound : lo + pre.length + (d.length + post.length) = hi := by
    have hall := congrArg List.length htake
    rw [List.length_take, Nat.min_eq_left hhi, List.length_append, hlen, List.length_append] at hall
    exact hall.symm
  have hpos := List.length_pos_iff.2 hd
  refine h (lo + pre.length) (Nat.le_add_right _ _) (by omega) ⟨by omega, ?_⟩ ?_
  · exact hfront ▸ hlo.balanced.append hpre
  · refine ⟨post ++ t.drop hi, ?_⟩
    have hsplit := List.take_append_drop hi t
    rw [htake, List.append_assoc, ← hfront] at hsplit
    conv => rhs; rw [← hsplit]
    rw [List.drop_left', List.append_assoc]
    rw [hfront, hlen]

/-- The pieces found from any point of a scan on, the first of which begins at `lo`. -/
theorem pieces_scanFrom (hd : d ≠ []) (hp : ∀ c ∈ d, IsPlain c)
    (hat : s.At t st opens pos rest) (hf : (s.scanFrom st opens pos rest).fault = none)
    (hlo : s.Cut t lo) (hclear : s.Clear d t lo pos) : s.Pieces d t lo
      (spansBetween t.length d.length lo (cutsFrom t d lo (s.scanFrom st opens pos rest).marks)) := by
  induction rest generalizing st opens pos lo with
  | nil =>
    have hmarks : (s.scanFrom st opens pos []).marks = [] := by
      cases st <;> cases opens <;> rfl
    obtain ⟨rfl, -, -⟩ := hat.last hf
    rw [hmarks]
    exact .last hlo (hclear.uncut hd hlo hlo.le_length (Nat.le_refl _))
  | cons c rest ih =>
    -- only a plain character can begin a delimiter
    have hbegins (hc : ¬ IsPlain c) : d.isPrefixOf (t.drop pos) = false := by
      rw [hat.drop]
      exact isPrefixOf_of_not_isPlain hd hp hc
    have hskip (hc : ¬ IsPlain c) : ¬ d <+: t.drop pos := fun h => by
      rw [List.isPrefixOf_iff_prefix.2 h] at hbegins
      cases hbegins hc
    have hread (hcut : s.Cut t pos) : st.quoting = .outside ∧ opens.length = 0 := by
      have hstart := Option.some.inj (hat.read.symm.trans hcut.balanced)
      exact ⟨congrArg Reading.quoting hstart, congrArg Reading.depth hstart⟩
    cases s.step rest opens pos c hat.proper with
    | literal hpr _ hq hn hscan =>
      rw [hscan] at hf ⊢
      refine ih (hat.next hpr hn) hf hlo (hclear.succ fun _ hcut => hskip fun hc => ?_)
      have hquote := hq (hread hcut).1
      rw [hc.1] at hquote
      cases hquote
    | unexpected _ _ _ hscan =>
      rw [hscan] at hf
      cases hf
    | mark hpr hq hplain hopen _ hn hscan =>
      have hnext := hat.next hpr hn
      rw [hscan] at hf ⊢
      rw [Scan.visit, cutsFrom]
      by_cases hc : IsPlain c
      · obtain ⟨rfl, rfl⟩ := hplain hc
        obtain rfl := hopen hc.2.2
        split
        · rename_i hcut
          simp only [Bool.and_eq_true, List.isEmpty_iff, decide_eq_true_eq] at hcut
          obtain ⟨⟨rfl, hle⟩, hpre⟩ := hcut
          have hdrop : d <+: t.drop pos := List.isPrefixOf_iff_prefix.1 hpre
          have hpos := hat.cut hq
          have hlen : pos + d.length ≤ t.length := by
            have := hdrop.length_le
            rw [List.length_drop] at this
            have := hpos.le_length
            omega
          have hnew : s.Cut t (pos + d.length) := by
            refine hpos.of_slice (Nat.le_add_right _ _) hlen ?_
            rw [slice_delimiter hdrop]
            exact balanced_plain hp
          refine .cons hlo hle hpos (hclear.uncut hd hlo hle hpos.le_length) hdrop ?_
          refine ih hnext hf hnew fun k (hk : pos + d.length ≤ k) hlt => ?_
          have := List.length_pos_iff.2 hd
          omega
        · rename_i hno
          refine ih hnext hf hlo (hclear.succ fun hle hcut hpre => hno ?_)
          simp only [Bool.and_eq_true, List.isEmpty_iff, decide_eq_true_eq]
          exact ⟨⟨List.length_eq_zero_iff.1 (hread hcut).2, hle⟩,
            List.isPrefixOf_iff_prefix.2 hpre⟩
      · rw [hbegins hc, Bool.and_false, if_neg Bool.false_ne_true]
        exact ih hnext hf hlo (hclear.succ fun _ _ => hskip hc)

/-- Splitting a text gives its pieces. -/
theorem splitSpans_pieces (hd : d ≠ []) (hp : ∀ c ∈ d, IsPlain c) {ws : List Span}
    (h : s.splitSpans t d = .ok ws) : s.Balanced t ∧ s.Pieces d t 0 ws := by
  unfold splitSpans at h
  cases hm : s.marks t with
  | error e => rw [hm] at h; cases h
  | ok ms =>
    rw [hm] at h
    cases h
    obtain ⟨hb, rfl⟩ := marks_eq_ok.1 hm
    refine ⟨hb, ?_⟩
    rw [List.isEmpty_eq_false_iff.2 hd, if_neg Bool.false_ne_true]
    exact pieces_scanFrom hd hp .start ((scanFrom_fault_iff .outside).2 hb) .zero
      fun _ _ hk => absurd hk (Nat.not_lt_zero _)

theorem Pieces.between {prev : Nat} {ws : List Span} (h : s.Pieces d t lo ws) (ht : s.Balanced t)
    (hprev : prev ≤ lo) (hgap : Gap d ((Span.mk prev lo).slice t)) :
    s.Between (Gap d) t prev ws t.length := by
  induction h generalizing prev with
  | last hlo =>
    exact ⟨⟨hprev, hgap⟩, hlo.le_length, hlo, .length ht, Nat.le_refl _, Nat.le_refl _,
      .inl (slice_self ..)⟩
  | cons hlo hle hcut _ hd _ ih =>
    exact ⟨⟨hprev, hgap⟩, hle, hlo, hcut, ih (Nat.le_add_right _ _) (.inr (slice_delimiter hd))⟩

/-- The pieces of a text follow one another, with the delimiter between them. -/
theorem splitSpans_between (hd : d ≠ []) (hp : ∀ c ∈ d, IsPlain c) {ws : List Span}
    (h : s.splitSpans t d = .ok ws) : s.Balanced t ∧ s.Between (Gap d) t 0 ws t.length := by
  obtain ⟨ht, hpieces⟩ := splitSpans_pieces hd hp h
  exact ⟨ht, hpieces.between ht (Nat.le_refl _) (.inl (slice_self ..))⟩

end Scanner
end ObjectQuery
