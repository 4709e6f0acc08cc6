import ObjectQuery.Proofs.Text.Reading

/-! # Cutting a text where nothing is open

A text may be cut where no literal and no parenthesis is open (`Scanner.Cut`). Words, the pieces
between delimiters and trimmed texts begin and end at such places, so each stands in the text
around it (`Scanner.Stands`) with a definite number of placeholders before it, and the
placeholders of the parts are those of the whole (`Scanner.Between.ordinals`).

* `Scanner.wordSpans_between`, `Scanner.splitSpans_between`: where words and pieces stand;
* `Scanner.Stands.trans`, `Scanner.Cut.add`: parts of parts;
* `Scanner.Occurs.question`: a placeholder of a part is a placeholder of the whole. -/

namespace ObjectQuery

variable {s : Scanner} {t u v a b : Text} {pos param lo hi k : Nat}

/-- Positions between characters are positions between bytes. -/
theorem Text.isValid_byteOffset (a b : Text) :
    String.Pos.Raw.IsValid (String.ofList (a ++ b)) ⟨Text.byteOffset (a ++ b) a.length⟩ := by
  refine String.Pos.Raw.isValid_iff_exists_append.2 ⟨_, _, String.ofList_append, ?_⟩
  have hsize : a.foldr (fun c bytes => c.utf8Size + bytes) 0 = String.utf8Len a := by
    induction a with
    | nil => rfl
    | cons c a ih => rw [List.foldr_cons, ih, String.utf8Len, Nat.add_comm]
  rw [Text.byteOffset, List.take_left, hsize, ← String.utf8ByteSize_ofList]
  rfl

namespace Scanner

/-- Nothing is open at the position. -/
structure Cut (s : Scanner) (t : Text) (k : Nat) : Prop where
  le_length : k ≤ t.length
  balanced : s.Balanced (t.take k)

/-- The number of placeholders before a position. -/
def before (s : Scanner) (t : Text) (k : Nat) : Nat := s.count (t.take k)

/-- The text `u` is the part of `t` at the position `pos`, before which no literal is open and
`param` placeholders stand. -/
def Occurs (s : Scanner) (t : Text) (pos param : Nat) (u : Text) : Prop :=
  ∃ left right, t = left ++ u ++ right ∧ left.length = pos ∧
    Quoting.run s .outside left = .outside ∧ s.count left = param

/-- The text `u` is a balanced part of `t`. -/
def Stands (s : Scanner) (t : Text) (pos param : Nat) (u : Text) : Prop :=
  s.Balanced u ∧ s.Occurs t pos param u

theorem Occurs.head (h : s.Occurs t pos param (a ++ b)) : s.Occurs t pos param a := by
  obtain ⟨l, r, rfl, h⟩ := h
  exact ⟨l, b ++ r, by simp, h⟩

theorem Occurs.tail (h : s.Occurs t pos param (a ++ b))
    (ha : Quoting.run s .outside a = .outside) :
    s.Occurs t (pos + a.length) (param + s.count a) b := by
  obtain ⟨l, r, rfl, rfl, hl, rfl⟩ := h
  refine ⟨l ++ a, r, by simp, by simp, ?_, count_append hl⟩
  rw [Quoting.run_append, hl, ha]

/-- A placeholder of a part is a placeholder of the whole. -/
theorem Occurs.question {j i : Nat} (h : s.Occurs t pos param u)
    (hq : (s.questions u)[j]? = some i) : (s.questions t)[param + j]? = some (pos + i) := by
  obtain ⟨l, r, rfl, rfl, hl, rfl⟩ := h
  have hj := (List.getElem?_eq_some_iff.1 hq).1
  have hu : s.questions (u ++ r) =
      s.questions u ++ s.questionsFrom (Quoting.run s .outside u) u.length r := by
    simp [questions, questionsFrom_append]
  rw [List.append_assoc, questions_append hl,
    List.getElem?_append_right (by simp [count]), List.getElem?_map, hu,
    List.getElem?_append_left (by simp [count]; omega)]
  simp [count, hq]

theorem Stands.balanced (h : s.Stands t pos param u) : s.Balanced u := h.1

theorem Stands.refl (h : s.Balanced t) : s.Stands t 0 0 t :=
  ⟨h, [], [], by simp, rfl, rfl, rfl⟩

/-- A balanced text may stand after any number of placeholders. -/
theorem Balanced.exists_stands (h : s.Balanced t) (param : Nat) :
    ∃ u pos, s.Stands u pos param t := by
  induction param with
  | zero => exact ⟨t, 0, .refl h⟩
  | succ param ih =>
    obtain ⟨_, _, -, l, r, rfl, rfl, hl, rfl⟩ := ih
    have hq : Quoting.run s .outside ['?'] = .outside := rfl
    refine ⟨['?'] ++ l ++ t ++ r, _, h, ['?'] ++ l, r, rfl, rfl, ?_, ?_⟩
    · rw [Quoting.run_append, hq, hl]
    · rw [count_append hq, Nat.add_comm]
      rfl

theorem Stands.trans {pos' param' : Nat} (h : s.Stands t pos param u)
    (h' : s.Stands u pos' param' v) : s.Stands t (pos + pos') (param + param') v := by
  obtain ⟨_, l, r, rfl, rfl, hl, rfl⟩ := h
  obtain ⟨hv, l', r', rfl, rfl, hl', rfl⟩ := h'
  refine ⟨hv, l ++ l', r' ++ r, by simp, by simp, ?_, count_append hl⟩
  rw [Quoting.run_append, hl, hl']

theorem Stands.count_le (h : s.Stands t pos param u) :
    param + s.count u ≤ s.count t := by
  obtain ⟨hu, l, r, rfl, rfl, hl, rfl⟩ := h
  rw [List.append_assoc, count_append hl, count_append hu.run]
  omega

/-! ## Slices -/

theorem take_append_slice (h : lo ≤ hi) : t.take lo ++ (Span.mk lo hi).slice t = t.take hi := by
  have := List.take_append_drop lo (t.take hi)
  rwa [List.take_take, Nat.min_eq_left h] at this

theorem take_length_of_take_eq (h : t.take k = a ++ b) : t.take a.length = a := by
  have hp : a <+: t := ⟨b ++ t.drop k, by rw [← List.append_assoc, ← h, List.take_append_drop]⟩
  exact (List.prefix_iff_eq_take.1 hp).symm

theorem Cut.zero : s.Cut t 0 := ⟨Nat.zero_le _, balanced_nil⟩

theorem Cut.length (h : s.Balanced t) : s.Cut t t.length := ⟨Nat.le_refl _, by simpa using h⟩

theorem before_length : s.before t t.length = s.count t := by simp [before]

theorem before_zero : s.before t 0 = 0 := rfl

theorem Cut.slice_balanced (hlo : s.Cut t lo) (hhi : s.Cut t hi) (h : lo ≤ hi) :
    s.Balanced ((Span.mk lo hi).slice t) :=
  hlo.balanced.of_append_left (take_append_slice h ▸ hhi.balanced)

theorem Cut.before_add (hlo : s.Cut t lo) (h : lo ≤ hi) :
    s.before t hi = s.before t lo + s.count ((Span.mk lo hi).slice t) := by
  rw [before, ← take_append_slice h, count_append hlo.balanced.run]
  rfl

/-- What lies between two cuts stands in the text. -/
theorem Cut.stands (hlo : s.Cut t lo) (hhi : s.Cut t hi) (h : lo ≤ hi) :
    s.Stands t lo (s.before t lo) ((Span.mk lo hi).slice t) := by
  refine ⟨hlo.slice_balanced hhi h, t.take lo, t.drop hi, ?_, ?_, hlo.balanced.run, rfl⟩
  · rw [take_append_slice h, List.take_append_drop]
  · rw [List.length_take, Nat.min_eq_left hlo.le_length]

theorem Cut.of_slice (hlo : s.Cut t lo) (h : lo ≤ hi) (hhi : hi ≤ t.length)
    (hb : s.Balanced ((Span.mk lo hi).slice t)) : s.Cut t hi :=
  ⟨hhi, take_append_slice h ▸ hlo.balanced.append hb⟩

/-- A cut of a part is a cut of the whole. -/
theorem Cut.add (hlo : s.Cut t lo)
    (hk : s.Cut ((Span.mk lo hi).slice t) k) : s.Cut t (lo + k) := by
  have hlen : k ≤ min hi t.length - lo := by
    have := hk.le_length
    rwa [Span.slice, List.length_drop, List.length_take] at this
  have htake : t.take (lo + k) = t.take lo ++ ((Span.mk lo hi).slice t).take k := by
    rw [List.take_add, Span.slice, List.drop_take, List.take_take, Nat.min_eq_left]
    show k ≤ hi - lo
    omega
  have := hlo.le_length
  exact ⟨by omega, htake ▸ hlo.balanced.append hk.balanced⟩

end Scanner

/-! ## Trimming -/

namespace Text

theorem exists_trimStart (t : Text) :
    ∃ l, t = l ++ trimStart t ∧ ∀ c ∈ l, isBlank c = true := by
  refine ⟨t.takeWhile isBlank, List.takeWhile_append_dropWhile.symm, fun c hc => ?_⟩
  exact List.all_eq_true.1 List.all_takeWhile c hc

theorem exists_trimEnd (t : Text) :
    ∃ r, t = trimEnd t ++ r ∧ ∀ c ∈ r, isBlank c = true := by
  obtain ⟨l, hl, hb⟩ := exists_trimStart t.reverse
  refine ⟨l.reverse, ?_, fun c hc => hb c (List.mem_reverse.1 hc)⟩
  have := congrArg List.reverse hl
  rwa [List.reverse_reverse, List.reverse_append] at this

/-- Trimming cuts off blanks at both ends and nothing else. -/
theorem exists_trim (t : Text) : ∃ l r, t = l ++ trim t ++ r ∧
    (∀ c ∈ l, isBlank c = true) ∧ ∀ c ∈ r, isBlank c = true := by
  obtain ⟨l, hl, hlb⟩ := exists_trimStart t
  obtain ⟨r, hr, hrb⟩ := exists_trimEnd (trimStart t)
  refine ⟨l, r, ?_, hlb, hrb⟩
  rw [List.append_assoc, trim, ← hr, ← hl]

end Text

namespace Scanner

theorem balanced_blanks (h : ∀ c ∈ t, isBlank c = true) : s.Balanced t :=
  balanced_plain fun c hc => isPlain_of_isBlank (h c hc)

theorem count_blanks (h : ∀ c ∈ t, isBlank c = true) : s.count t = 0 :=
  count_eq_zero (not_mem_blanks h)

/-- A trimmed text stands in the text, with all its placeholders. -/
theorem Balanced.stands_trim (h : s.Balanced t) :
    (∃ pos, s.Stands t pos 0 (Text.trim t)) ∧ s.count (Text.trim t) = s.count t := by
  obtain ⟨l, r, ht, hl, hr⟩ := Text.exists_trim t
  have hlb : s.Balanced l := balanced_blanks hl
  have hu : s.Balanced (Text.trim t) := by
    rw [ht, List.append_assoc] at h
    exact (hlb.of_append_left h).of_append_blanks hr
  refine ⟨⟨_, hu, l, r, ht, rfl, hlb.run, count_blanks hl⟩, ?_⟩
  have hc : s.count (l ++ Text.trim t ++ r) = s.count (Text.trim t) := by
    rw [count_append (hlb.append hu).run, count_append hlb.run, count_blanks hl, count_blanks hr,
      Nat.zero_add, Nat.add_zero]
  rw [← hc, ← ht]

end Scanner

namespace Text

theorem trimStart_head {c : Char} {r : Text} (h : trimStart t = c :: r) : isBlank c = false := by
  have := List.head?_dropWhile_not isBlank t
  rw [show t.dropWhile isBlank = c :: r from h] at this
  simpa using this

/-- Blanks at the front and blanks at the end of a text do not overlap, unless there is nothing
else. -/
theorem length_trimEnd_of_trimStart (h : trimStart t ≠ []) :
    t.length - (trimStart t).length < (trimEnd t).length := by
  obtain ⟨l, hl, _⟩ := exists_trimStart t
  obtain ⟨r, hr, hrb⟩ := exists_trimEnd t
  cases hk : trimStart t with
  | nil => exact absurd hk h
  | cons c k =>
    rw [hk] at hl
    have hlen := congrArg List.length hl
    rw [List.length_append] at hlen
    rw [show t.length - (c :: k).length = l.length by omega]
    apply Nat.lt_of_not_le
    intro hle
    -- otherwise the first character kept would be one of the blanks at the end
    have hc : c ∈ r := by
      rw [hr] at hl
      obtain ⟨m, hm, hr'⟩ | ⟨m, hm, hr'⟩ := List.append_eq_append_iff.1 hl
      · rw [hr']; simp
      · cases m with
        | nil =>
          rw [List.nil_append] at hr'
          rw [← hr']; exact List.mem_cons_self
        | cons d m =>
          rw [hm, List.length_append, List.length_cons] at hle
          omega
    have hb := hrb c hc
    rw [trimStart_head hk] at hb
    cases hb

end Text

namespace Scanner

/-- Trimming a span between two cuts gives a span between two cuts, with all its placeholders. -/
theorem Cut.trimmed {w : Span} (hlo : s.Cut t w.start) (hhi : s.Cut t w.stop)
    (h : w.start ≤ w.stop) :
    (w.trimmed t).start ≤ (w.trimmed t).stop ∧ s.Cut t (w.trimmed t).start ∧
      s.Cut t (w.trimmed t).stop ∧
      s.before t (w.trimmed t).start = s.before t w.start ∧
      s.before t (w.trimmed t).stop = s.before t w.stop := by
  have hraw : t.take w.stop = t.take w.start ++ w.slice t := (take_append_slice h).symm
  have hlen : (w.slice t).length = w.stop - w.start := by
    have := congrArg List.length hraw
    rw [List.length_append, List.length_take, List.length_take,
      Nat.min_eq_left hlo.le_length, Nat.min_eq_left hhi.le_length] at this
    omega
  obtain ⟨l, hl, hlb⟩ := Text.exists_trimStart (w.slice t)
  obtain ⟨r, hr, hrb⟩ := Text.exists_trimEnd (w.slice t)
  have hll := congrArg List.length hl
  have hrl := congrArg List.length hr
  rw [List.length_append] at hll hrl
  by_cases hk : Text.trimStart (w.slice t) = []
  · have htr : w.trimmed t = ⟨w.start, w.start⟩ := by simp [Span.trimmed, hk]
    rw [hk, List.append_nil] at hl
    rw [htr]
    refine ⟨Nat.le_refl _, hlo, hlo, rfl, ?_⟩
    rw [before, before, hraw, count_append hlo.balanced.run, hl, count_blanks hlb, Nat.add_zero]
  · have hover := Text.length_trimEnd_of_trimStart hk
    have htr : w.trimmed t = ⟨w.start + l.length, w.stop - r.length⟩ := by
      simp only [Span.trimmed, List.isEmpty_iff, hk, if_false]
      congr 1 <;> omega
    have hst : (t.take w.start).length = w.start := by
      rw [List.length_take, Nat.min_eq_left hlo.le_length]
    have hstart : t.take (w.start + l.length) = t.take w.start ++ l := by
      rw [hl, ← List.append_assoc] at hraw
      have := take_length_of_take_eq hraw
      rwa [List.length_append, hst] at this
    have hstop : t.take (w.stop - r.length) ++ r = t.take w.stop := by
      rw [hr, ← List.append_assoc] at hraw
      have := take_length_of_take_eq hraw
      rw [List.length_append, hst, show w.start + (Text.trimEnd (w.slice t)).length =
        w.stop - r.length by omega] at this
      rw [this, hraw]
    have hlen' := hhi.le_length
    have hcut : s.Balanced (t.take (w.stop - r.length)) :=
      Balanced.of_append_blanks hrb (hstop ▸ hhi.balanced)
    rw [htr]
    refine ⟨by simp only; omega, ⟨by simp only; omega, ?_⟩, ⟨by simp only; omega, hcut⟩, ?_, ?_⟩
    · exact hstart ▸ hlo.balanced.append (balanced_blanks hlb)
    · rw [before, hstart, count_append hlo.balanced.run, count_blanks hlb]; rfl
    · rw [before, before, ← hstop, count_append hcut.run, count_blanks hrb]; rfl

/-! ## Consecutive spans -/

/-- Spans that follow one another from `lo` to `hi`, each between two cuts; what lies between them
is of the kind `gap`. -/
def Between (s : Scanner) (gap : Text → Prop) (t : Text) : Nat → List Span → Nat → Prop
  | lo, [], hi => lo ≤ hi ∧ hi ≤ t.length ∧ gap ((Span.mk lo hi).slice t)
  | lo, w :: ws, hi =>
    (lo ≤ w.start ∧ gap ((Span.mk lo w.start).slice t)) ∧ w.start ≤ w.stop ∧ s.Cut t w.start ∧
      s.Cut t w.stop ∧ Between s gap t w.stop ws hi

/-- A text without effect on how the text after it is read. -/
def Neutral (s : Scanner) (t : Text) : Prop := s.Balanced t ∧ s.count t = 0

theorem Neutral.silent (h : s.Neutral t) : s.Silent t := ⟨h.1.run, h.2⟩

theorem Neutral.append {a b : Text} (ha : s.Neutral a) (hb : s.Neutral b) : s.Neutral (a ++ b) :=
  ⟨Balanced.append ha.1 hb.1, (ha.silent.append hb.silent).2⟩

variable {gap : Text → Prop} {ws ws' : List Span}

theorem Between.le (h : s.Between gap t lo ws hi) : lo ≤ hi := by
  induction ws generalizing lo with
  | nil => exact h.1
  | cons w ws ih =>
    obtain ⟨⟨h1, _⟩, h2, _, _, h3⟩ := h
    have := ih h3
    omega

/-- The ordinals of the placeholders in a part of a text. -/
def ordinals (s : Scanner) (t : Text) (w : Span) : List Nat :=
  List.range' (s.before t w.start) (s.count (w.slice t))

theorem ordinals_all : s.ordinals t ⟨0, t.length⟩ = List.range' 0 (s.count t) := by
  simp [ordinals, Span.slice, before_zero]

/-- A span between two cuts has its placeholders also when it is trimmed. -/
theorem Cut.ordinals_trimmed {w : Span} (hlo : s.Cut t w.start) (hhi : s.Cut t w.stop)
    (h : w.start ≤ w.stop) : s.ordinals t (w.trimmed t) = s.ordinals t w := by
  obtain ⟨hle, hlo', -, hb, he⟩ := hlo.trimmed hhi h
  have hcount := hlo'.before_add hle
  rw [hb, he, hlo.before_add h] at hcount
  rw [ordinals, ordinals, hb, ← Nat.add_left_cancel hcount]

/-- The placeholders of consecutive spans are those of the text they cover. -/
theorem Between.ordinals (hg : ∀ g, gap g → s.Neutral g) (hlo : s.Cut t lo)
    (h : s.Between gap t lo ws hi) :
    s.Cut t hi ∧ ws.flatMap (s.ordinals t) = s.ordinals t ⟨lo, hi⟩ := by
  induction ws generalizing lo with
  | nil =>
    obtain ⟨h1, h2, h3⟩ := h
    obtain ⟨hb, hc⟩ := hg _ h3
    exact ⟨hlo.of_slice h1 h2 hb, by simp [Scanner.ordinals, hc]⟩
  | cons w ws ih =>
    obtain ⟨⟨h1, hgap⟩, h2, hstart, hstop, h3⟩ := h
    obtain ⟨hhi, hws⟩ := ih hstop h3
    refine ⟨hhi, ?_⟩
    have hle := h3.le
    have e1 := hlo.before_add h1
    rw [(hg _ hgap).2, Nat.add_zero] at e1
    have e2 : s.before t w.stop = s.before t w.start + s.count (w.slice t) :=
      hstart.before_add h2
    have e3 := hstop.before_add hle
    have e4 := hlo.before_add (Nat.le_trans h1 (Nat.le_trans h2 hle))
    have hcount : s.count ((Span.mk lo hi).slice t) =
        s.count (w.slice t) + s.count ((Span.mk w.stop hi).slice t) := by
      omega
    rw [List.flatMap_cons, hws]
    simp only [Scanner.ordinals]
    rw [hcount, ← List.range'_append_1, e2, e1]

theorem Between.mem {w : Span} (h : s.Between gap t lo ws hi) (hw : w ∈ ws) :
    w.start ≤ w.stop ∧ s.Cut t w.start ∧ s.Cut t w.stop := by
  induction ws generalizing lo with
  | nil => cases hw
  | cons v ws ih =>
    obtain ⟨_, h1, h2, h3, h4⟩ := h
    rcases List.mem_cons.1 hw with rfl | hw
    · exact ⟨h1, h2, h3⟩
    · exact ih h4 hw

/-- Consecutive spans can be divided anywhere. -/
theorem Between.split (h : s.Between gap t lo (ws ++ ws') hi) (hg : gap []) (hlo : s.Cut t lo) :
    ∃ mid, s.Between gap t lo ws mid ∧ s.Cut t mid ∧ s.Between gap t mid ws' hi := by
  induction ws generalizing lo with
  | nil =>
    exact ⟨lo, ⟨Nat.le_refl _, hlo.le_length, by simpa [Span.slice] using hg⟩, hlo, h⟩
  | cons w ws ih =>
    obtain ⟨h1, h2, h3, h4, h5⟩ := h
    obtain ⟨mid, h6, h7, h8⟩ := ih h5 h4
    exact ⟨mid, ⟨h1, h2, h3, h4, h6⟩, h7, h8⟩

/-- Consecutive spans cover what lies from the start of the first to the end of the last. -/
theorem Between.shrink {first last : Span} (h : s.Between gap t lo (first :: ws) hi)
    (hg : gap []) (hl : (first :: ws).getLast? = some last) :
    s.Between gap t first.start (first :: ws) last.stop := by
  obtain ⟨-, h2, h3, h4, h5⟩ := h
  refine ⟨⟨Nat.le_refl _, by simpa [Span.slice] using hg⟩, h2, h3, h4, ?_⟩
  induction ws generalizing first with
  | nil =>
    cases hl
    exact ⟨Nat.le_refl _, h4.le_length, by simpa [Span.slice] using hg⟩
  | cons w ws ih =>
    obtain ⟨h6, h7, h8, h9, h10⟩ := h5
    exact ⟨h6, h7, h8, h9, ih (by simpa using hl) h7 h8 h9 h10⟩

end Scanner
end ObjectQuery
