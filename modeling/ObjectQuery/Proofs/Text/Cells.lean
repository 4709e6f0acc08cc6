import ObjectQuery.Proofs.Text.Conjuncts

/-! # Texts as words with blanks after them

A balanced text is blanks and then words, each with the blanks after it. It is so in one way only,
and the words are those that are found in it, at the positions where they stand.

* `Scanner.Cells`: words with blanks between them;
* `exists_cells`: every balanced text is made of such cells;
* `Cells.topWords`, `Cells.wordSpans`: the words of a text that is made of cells;
* `Text.trim_blanks`, `Text.slice_trimmed`: the blanks at the ends of a text. -/

namespace ObjectQuery

/-- A word of a text, and the blanks after it. -/
structure Cell where
  word : Text
  gap : Text

namespace Cell

/-- The part of a text that the cell stands for. -/
def text (c : Cell) : Text := c.word ++ c.gap

/-- The part of a text that several cells stand for. -/
def texts (cs : List Cell) : Text := cs.flatMap text

/-- Where the words of some cells stand that begin at `pos`. -/
def spans : Nat → List Cell → List Span
  | _, [] => []
  | pos, c :: cs => ⟨pos, pos + c.word.length⟩ :: spans (pos + c.text.length) cs

@[simp] theorem texts_nil : texts [] = [] := rfl

theorem texts_cons (c : Cell) (cs : List Cell) : texts (c :: cs) = c.text ++ texts cs := rfl

theorem texts_word (c : Cell) (cs : List Cell) : texts (c :: cs) = c.word ++ (c.gap ++ texts cs) := by
  rw [texts, List.flatMap_cons, text, List.append_assoc]; rfl

theorem texts_append (cs ds : List Cell) : texts (cs ++ ds) = texts cs ++ texts ds :=
  List.flatMap_append

end Cell

namespace Scanner

variable {s : Scanner} {t u v w lead gap : Text} {r r' : Reading} {c : Char} {cell : Cell}
  {cs ds : List Cell} {lo hi : Nat} {ws : List Span}

/-! ## Whole words -/

/-- The text is one word wherever blanks are around it. -/
structure Whole (s : Scanner) (w : Text) : Prop where
  ne_nil : w ≠ []
  balanced : s.Balanced w
  unbroken : s.Unbroken .start w

theorem Whole.exists_cons (h : s.Whole w) : ∃ c w', w = c :: w' ∧ isBlank c = false := by
  cases w with
  | nil => exact absurd rfl h.ne_nil
  | cons c w' => exact ⟨c, w', rfl, h.unbroken [] c w' rfl rfl⟩

/-- A word does not end in a blank. -/
theorem Whole.isBlank_getLast (h : s.Whole w) (hc : w.getLast? = some c) : isBlank c = false := by
  obtain ⟨u, rfl⟩ := List.getLast?_eq_some_iff.1 hc
  refine Bool.eq_false_of_not_eq_true fun hc => ?_
  have hu : s.Balanced u := Balanced.of_append_blanks (List.forall_mem_singleton.2 hc) h.balanced
  rw [h.unbroken u c [] rfl hu] at hc
  cases hc

theorem Whole.topWords (h : s.Whole w) : s.topWords w = [w] :=
  topWords_unbroken h.ne_nil h.unbroken h.balanced

theorem Unbroken.cons (hc : r = .start → isBlank c = false) (hn : r.next s c = some r')
    (h : s.Unbroken r' t) : s.Unbroken r (c :: t) := by
  intro pre d post ht hr
  cases pre with
  | nil =>
    obtain ⟨rfl, -⟩ := List.cons.inj ht
    exact hc (Option.some.inj hr)
  | cons e pre =>
    obtain ⟨rfl, rfl⟩ := List.cons.inj ht
    rw [read_cons, hn] at hr
    exact h pre d post rfl hr

/-- What comes before the first blank at which nothing is open. -/
theorem exists_unbroken (h : s.read r t = some .start) :
    ∃ u v, t = u ++ v ∧ s.Unbroken r u ∧ s.read r u = some .start ∧
      ∀ c ∈ v.head?, isBlank c = true := by
  induction t generalizing r with
  | nil => exact ⟨[], [], rfl, unbroken_of_forall nofun, h, nofun⟩
  | cons c t ih =>
    by_cases hc : r = .start ∧ isBlank c = true
    · obtain ⟨rfl, hc⟩ := hc
      exact ⟨[], c :: t, rfl, unbroken_of_forall nofun, rfl, by simpa using hc⟩
    · obtain ⟨r', hn, hr⟩ := Option.bind_eq_some_iff.1 h
      obtain ⟨u, v, rfl, hu, hru, hv⟩ := ih hr
      have hc : r = .start → isBlank c = false := fun hr =>
        Bool.eq_false_of_not_eq_true fun hb => hc ⟨hr, hb⟩
      refine ⟨c :: u, v, rfl, hu.cons hc hn, ?_, hv⟩
      rw [read_cons, hn]
      exact hru

/-- A balanced text that begins with no blank begins with a word. -/
theorem Balanced.exists_whole (h : s.Balanced (c :: t)) (hc : isBlank c = false) :
    ∃ w v, c :: t = w ++ v ∧ s.Whole w ∧ s.Balanced v ∧ ∀ c ∈ v.head?, isBlank c = true := by
  obtain ⟨w, v, ht, hunbroken, hw, hv⟩ := exists_unbroken h
  refine ⟨w, v, ht, ⟨?_, hw, hunbroken⟩, Balanced.of_append_left hw (ht ▸ h), hv⟩
  rintro rfl
  rw [List.nil_append] at ht
  rw [hv c (by rw [← ht]; rfl)] at hc
  cases hc

/-! ## Cells -/

/-- Words with blanks after each of them; after the last one there may be none. -/
inductive Cells (s : Scanner) : List Cell → Prop
  | nil : Cells s []
  | cons {c : Cell} {cs : List Cell} (hw : s.Whole c.word) (hgap : Blank c.gap)
    (hlast : c.gap = [] → cs = []) (h : Cells s cs) : Cells s (c :: cs)

theorem Cells.append (h : s.Cells cs) (hs : ∀ c ∈ cs, c.gap ≠ []) (h' : s.Cells ds) :
    s.Cells (cs ++ ds) := by
  induction h with
  | nil => exact h'
  | cons hw hgap _ _ ih =>
    obtain ⟨hc, hs⟩ := List.forall_mem_cons.1 hs
    exact .cons hw hgap (fun he => absurd he hc) (ih hs)

theorem Cells.of_append_left (h : s.Cells (cs ++ ds)) : s.Cells cs := by
  induction cs with
  | nil => exact .nil
  | cons c cs ih =>
    obtain _ | ⟨hw, hgap, hlast, h⟩ := h
    exact .cons hw hgap (fun he => (List.append_eq_nil_iff.1 (hlast he)).1) (ih h)

theorem Cells.of_append_right (h : s.Cells (cs ++ ds)) : s.Cells ds := by
  induction cs with
  | nil => exact h
  | cons c cs ih =>
    obtain _ | ⟨-, -, -, h⟩ := h
    exact ih h

/-- Before other cells every cell has blanks. -/
theorem Cells.gap_ne_nil (h : s.Cells (cs ++ ds)) (hd : ds ≠ []) : ∀ c ∈ cs, c.gap ≠ [] := by
  induction cs with
  | nil => exact nofun
  | cons c cs ih =>
    obtain _ | ⟨-, -, hlast, h⟩ := h
    exact List.forall_mem_cons.2
      ⟨fun he => hd (List.append_eq_nil_iff.1 (hlast he)).2, ih h⟩

theorem Cells.balanced (h : s.Cells cs) : s.Balanced (Cell.texts cs) := by
  induction h with
  | nil => exact balanced_nil
  | cons hw hgap _ _ ih =>
    rw [Cell.texts_word]
    exact hw.balanced.append ((balanced_blanks hgap).append ih)

theorem Cells.exists_cons (h : s.Cells (cell :: cs)) :
    ∃ c t, Cell.texts (cell :: cs) = c :: t ∧ isBlank c = false := by
  obtain _ | ⟨hw, -, -, -⟩ := h
  obtain ⟨c, w, he, hc⟩ := hw.exists_cons
  exact ⟨c, _, by rw [Cell.texts_word, he]; rfl, hc⟩

/-- A text of cells that ends in a blank has blanks after every word. -/
theorem Cells.gap_ne_nil_of_blank (h : s.Cells cs) (hl : (Cell.texts cs).getLast? = some c)
    (hc : isBlank c = true) : ∀ d ∈ cs, d.gap ≠ [] := by
  induction h with
  | nil => exact nofun
  | @cons d cs hw _ hlast hcs ih =>
    rw [Cell.texts_word] at hl
    cases cs with
    | nil =>
      refine List.forall_mem_singleton.2 fun he => ?_
      rw [he, Cell.texts_nil, List.append_nil, List.append_nil] at hl
      rw [hw.isBlank_getLast hl] at hc
      cases hc
    | cons e es =>
      obtain ⟨b, t, ht, -⟩ := hcs.exists_cons
      have hne : Cell.texts (e :: es) ≠ [] := ht ▸ nofun
      rw [← List.append_assoc, List.getLast?_append_of_ne_nil _ hne] at hl
      exact List.forall_mem_cons.2 ⟨fun he => (by cases hlast he), ih hl⟩

/-- Every balanced text is made of cells, after some blanks. -/
theorem Balanced.exists_cells (h : s.Balanced t) :
    ∃ lead cs, t = lead ++ Cell.texts cs ∧ Blank lead ∧ s.Cells cs := by
  induction hn : t.length using Nat.strong_induction_on generalizing t with
  | _ n ih =>
  obtain ⟨lead, ht, hlead⟩ := Text.exists_trimStart t
  cases hr : t.trimStart with
  | nil => exact ⟨lead, [], by rw [ht, hr]; rfl, hlead, .nil⟩
  | cons c rest =>
    rw [hr] at ht
    have hb : s.Balanced (c :: rest) := (balanced_blanks hlead).of_append_left (ht ▸ h)
    obtain ⟨w, v, hsplit, hw, hv, hhead⟩ := hb.exists_whole (Text.trimStart_head hr)
    have hlen : v.length < n := by
      have hpos := List.length_pos_iff.2 hw.ne_nil
      rw [← hn, ht, hsplit, List.length_append, List.length_append]
      omega
    obtain ⟨gap, cs, hvt, hgap, hcs⟩ := ih _ hlen hv rfl
    refine ⟨lead, ⟨w, gap⟩ :: cs, ?_, hlead, .cons hw hgap (fun he => ?_) hcs⟩
    · rw [ht, hsplit, hvt, Cell.texts_word]
    · -- without blanks after the word nothing is left, as nothing else can follow it
      cases cs with
      | nil => rfl
      | cons d cs =>
        obtain ⟨e, t, hd, he'⟩ := hcs.exists_cons
        rw [hvt, show gap = [] from he, List.nil_append, hd] at hhead
        rw [hhead e rfl] at he'
        cases he'

/-! ## Words -/

theorem topWords_blanks (h : Blank gap) (t : Text) : s.topWords (gap ++ t) = s.topWords t := by
  induction gap with
  | nil => rfl
  | cons c gap ih =>
    obtain ⟨hc, h⟩ := List.forall_mem_cons.1 h
    exact (wordsAfter_blank hc).trans (ih h)

theorem topWords_append_blanks (h : s.Balanced t) (hgap : Blank gap) :
    s.topWords (t ++ gap) = s.topWords t := by
  cases gap with
  | nil => rw [List.append_nil]
  | cons c gap =>
    obtain ⟨hc, hgap⟩ := List.forall_mem_cons.1 hgap
    have hnone : s.topWords gap = [] := (congrArg _ (List.append_nil gap).symm).trans
      (topWords_blanks hgap [])
    rw [topWords_append_blank h hc, hnone, List.append_nil]

/-- The words of the cells are those of the text. -/
theorem Cells.topWords (h : s.Cells cs) : s.topWords (Cell.texts cs) = cs.map (·.word) := by
  induction h with
  | nil => rfl
  | @cons c cs hw hgap hlast _ ih =>
    rw [Cell.texts_word, List.map_cons, ← ih]
    cases hg : c.gap with
    | nil => rw [hlast hg, Cell.texts_nil, List.append_nil, List.append_nil, hw.topWords]; rfl
    | cons d gap =>
      rw [hg] at hgap
      obtain ⟨hd, hgap⟩ := List.forall_mem_cons.1 hgap
      rw [List.cons_append, topWords_append_blank hw.balanced hd, topWords_blanks hgap, hw.topWords]
      rfl

/-! ## Positions -/

theorem slice_of_drop (h : t.drop lo = u ++ v) : (Span.mk lo (lo + u.length)).slice t = u := by
  rw [Span.slice, List.drop_take, Nat.add_sub_cancel_left, h, List.take_left]

theorem drop_of_drop (h : t.drop lo = u ++ v) : t.drop (lo + u.length) = v := by
  rw [← List.drop_drop, h, List.drop_left]

theorem drop_eq_slice_append (h : lo ≤ hi) (hhi : hi ≤ t.length) :
    t.drop lo = (Span.mk lo hi).slice t ++ t.drop hi := by
  have hsplit : (t.take hi ++ t.drop hi).drop lo = t.drop lo := by rw [List.take_append_drop]
  rw [← hsplit, List.drop_append_of_le_length, Span.slice]
  rw [List.length_take, Nat.min_eq_left hhi]
  exact h

theorem length_slice (h : hi ≤ t.length) : ((Span.mk lo hi).slice t).length = hi - lo := by
  rw [Span.slice, List.length_drop, List.length_take, Nat.min_eq_left h]

/-- Where some cells stand, the first of them is a word. -/
theorem slice_word (h : t.drop lo = Cell.texts (cell :: cs)) :
    (Span.mk lo (lo + cell.word.length)).slice t = cell.word :=
  slice_of_drop (h.trans (Cell.texts_word cell cs))

theorem drop_text (h : t.drop lo = Cell.texts (cell :: cs)) :
    t.drop (lo + cell.text.length) = Cell.texts cs :=
  drop_of_drop h

/-- Blanks before something else are found again. -/
theorem takeWhile_blanks (h : Blank gap) (hc : isBlank c = false) :
    (gap ++ c :: t).takeWhile isBlank = gap := by
  rw [List.takeWhile_append_of_pos h, List.takeWhile_cons, hc]
  exact List.append_nil gap

/-- Words that lie one after the other stand where the cells say. -/
theorem Cells.spans_eq (h : s.Cells cs) (hgap : Blank gap) (ht : t.drop lo = gap ++ Cell.texts cs)
    (hb : s.Between Blank t lo ws t.length) (hws : ws.map (·.slice t) = cs.map (·.word)) :
    ws = Cell.spans (lo + gap.length) cs := by
  induction h generalizing lo gap ws with
  | nil => exact List.map_eq_nil_iff.1 hws
  | @cons c cs hw hgap' _ _ ih =>
    obtain ⟨w, ws, rfl, hword, hrest⟩ := List.map_eq_cons_iff.1 hws
    have hword : w.slice t = c.word := hword
    obtain ⟨⟨h1, hblank⟩, h2, h3, h4, h5⟩ := hb
    obtain ⟨d, word, he, hd⟩ := hw.exists_cons
    have hsplit := ht.symm
    rw [drop_eq_slice_append h1 h3.le_length, drop_eq_slice_append h2 h4.le_length, hword,
      Cell.texts_word] at hsplit
    have hsame : gap = (Span.mk lo w.start).slice t := by
      have htake := congrArg (List.takeWhile isBlank) hsplit
      rwa [he, List.cons_append, takeWhile_blanks hgap hd, List.cons_append,
        takeWhile_blanks hblank hd] at htake
    have hstart : w.start = lo + gap.length := by
      have hlen := congrArg List.length hsame
      rw [length_slice h3.le_length] at hlen
      omega
    have hstop : w.stop = w.start + c.word.length := by
      have hlen := congrArg List.length hword
      rw [length_slice h4.le_length] at hlen
      omega
    have hdrop : t.drop w.stop = c.gap ++ Cell.texts cs := by
      rw [← hsame] at hsplit
      exact (List.append_cancel_left (List.append_cancel_left hsplit)).symm
    rw [Cell.spans, ih hgap' hdrop h5 hrest, Cell.text, List.length_append, ← hstart,
      ← Nat.add_assoc, ← hstop]

theorem Cells.wordSpans (h : s.Cells cs) (hlead : Blank lead) :
    s.wordSpans (lead ++ Cell.texts cs) = .ok (Cell.spans lead.length cs) := by
  have hb : s.Balanced (lead ++ Cell.texts cs) := (balanced_blanks hlead).append h.balanced
  have hwords := words_eq_topWords hb
  rw [topWords_blanks hlead, h.topWords, words] at hwords
  cases hws : s.wordSpans (lead ++ Cell.texts cs) with
  | error e =>
    rw [hws] at hwords
    cases hwords
  | ok ws =>
    rw [hws] at hwords
    have heq := h.spans_eq hlead rfl (wordSpans_between hws).2 (Except.ok.inj hwords)
    rw [heq, Nat.zero_add]

end Scanner

/-! ## Blanks at the ends -/

namespace Text

open Scanner (Blank)

variable {t u a b : Text} {c : Char} {w : Span}

theorem trimStart_blanks (h : Blank a) (t : Text) : trimStart (a ++ t) = trimStart t :=
  List.dropWhile_append_of_pos h

theorem trimEnd_blanks (h : Blank b) (t : Text) : trimEnd (t ++ b) = trimEnd t := by
  rw [trimEnd, List.reverse_append, List.dropWhile_append_of_pos]
  · rfl
  · exact fun c hc => h c (List.mem_reverse.1 hc)

/-- Only what comes after the last other character is cut off at the end. -/
theorem trimEnd_append (hc : isBlank c = false) (a t : Text) :
    trimEnd (a ++ c :: t) = a ++ trimEnd (c :: t) := by
  have hne : ((c :: t).reverse.dropWhile isBlank).isEmpty = false := by
    rw [List.isEmpty_eq_false_iff, ne_eq, List.dropWhile_eq_nil_iff]
    intro h
    rw [h c (by simp)] at hc
    cases hc
  rw [trimEnd, List.reverse_append, List.dropWhile_append, hne, if_neg Bool.false_ne_true,
    List.reverse_append, List.reverse_reverse]
  rfl

theorem blank_of_trimStart (h : trimStart t = []) : Blank t :=
  List.dropWhile_eq_nil_iff.1 h

/-- A trimmed text begins with no blank. -/
theorem isBlank_of_trim (h : trim t = c :: u) : isBlank c = false := by
  obtain ⟨r, hr, -⟩ := exists_trimEnd (trimStart t)
  rw [← trim, h] at hr
  exact trimStart_head hr

/-- Blanks around a text are cut off with its own. -/
theorem trim_blanks (ha : Blank a) (hb : Blank b) (t : Text) : trim (a ++ t ++ b) = trim t := by
  rw [List.append_assoc, trim, trimStart_blanks ha]
  cases ht : trimStart t with
  | nil =>
    have hall : trimStart (t ++ b) = [] := List.dropWhile_eq_nil_iff.2 fun c hc =>
      (List.mem_append.1 hc).elim (blank_of_trimStart ht c) (hb c)
    rw [hall, trim, ht]
  | cons c k =>
    have hkeep : trimStart (t ++ b) = trimStart t ++ b := by
      rw [trimStart, List.dropWhile_append, if_neg]
      · rfl
      · rw [show t.dropWhile isBlank = c :: k from ht]
        simp
    rw [hkeep, trimEnd_blanks hb, trim]

theorem trim_append_blanks (h : Blank b) (t : Text) : trim (t ++ b) = trim t :=
  trim_blanks (a := []) nofun h t

theorem trim_blanks_append (h : Blank a) (t : Text) : trim (a ++ t) = trim t := by
  rw [← trim_blanks h (b := []) nofun t, List.append_nil]

/-- A text without blanks is a trimmed one. -/
theorem trim_eq_self (h : ∀ c ∈ t, isBlank c = false) : trim t = t := by
  have hkeep (u : Text) (hu : ∀ c ∈ u, isBlank c = false) : u.dropWhile isBlank = u :=
    List.dropWhile_eq_self_iff.2 fun hl => by simp [hu _ (List.getElem_mem hl)]
  rw [trim, trimStart, hkeep t h, trimEnd, hkeep _ (by simpa using h), List.reverse_reverse]

/-- There are no blanks before a text that begins with none. -/
theorem blanks_eq_nil (h : Blank a) (ht : a ++ t = c :: u) (hc : isBlank c = false) : a = [] := by
  cases a with
  | nil => rfl
  | cons d a =>
    cases ht
    rw [h c List.mem_cons_self] at hc
    cases hc

/-- The part of a text that a span has without its blanks. -/
theorem slice_trimmed (h1 : w.start ≤ w.stop) (h2 : w.stop ≤ t.length) :
    (w.trimmed t).slice t = trim (w.slice t) := by
  simp only [Span.trimmed, List.isEmpty_iff]
  split
  · rename_i hnone
    rw [Scanner.slice_self, trim, hnone]
    rfl
  · rename_i hsome
    obtain ⟨c, k, hk⟩ := List.exists_cons_of_ne_nil hsome
    obtain ⟨l, hl, -⟩ := exists_trimStart (w.slice t)
    obtain ⟨r, hr, -⟩ := exists_trimEnd (w.slice t)
    have htake : t.take w.start ++ w.slice t = t.take w.stop := Scanner.take_append_slice h1
    have hlen : (t.take w.start).length = w.start := by
      rw [List.length_take, Nat.min_eq_left (h1.trans h2)]
    have hcut : l ++ trim (w.slice t) = trimEnd (w.slice t) := by
      conv => rhs; rw [hl, hk, trimEnd_append (trimStart_head hk)]
      rw [trim, hk]
    have hll := congrArg List.length hl
    have hrl := congrArg List.length hr
    have hslice : (w.slice t).length = w.stop - w.start := Scanner.length_slice h2
    rw [List.length_append] at hll hrl
    have hstop : t.take (w.stop - r.length) = t.take w.start ++ trimEnd (w.slice t) := by
      rw [hr, ← List.append_assoc] at htake
      have hfront := Scanner.take_length_of_take_eq htake.symm
      rwa [List.length_append, hlen, show w.start + (trimEnd (w.slice t)).length =
        w.stop - r.length by omega] at hfront
    rw [Span.slice]
    simp only
    rw [show (w.slice t).length - (trimStart (w.slice t)).length = l.length by omega,
      show (w.slice t).length - (trimEnd (w.slice t)).length = r.length by omega, hstop, ← hcut,
      ← List.append_assoc, List.drop_left']
    rw [List.length_append, hlen]

end Text

/-- What is cut out of a text between balanced parts, without the blanks around it. -/
theorem Scanner.slice_trimmed_part {s : Scanner} {t pre u post : Text} (hpre : s.Balanced pre)
    (hu : s.Balanced u) (ht : t = pre ++ (u ++ post)) :
    ((Span.mk pre.length (pre.length + u.length)).trimmed t).slice t = Text.trim u ∧
      s.before t ((Span.mk pre.length (pre.length + u.length)).trimmed t).start = s.count pre := by
  have hle : pre.length + u.length ≤ t.length := by
    rw [ht, List.length_append, List.length_append]
    omega
  have hdrop : t.drop pre.length = u ++ post := by rw [ht, List.drop_left]
  have htake : t.take pre.length = pre := by rw [ht, List.take_left]
  have hstart : s.Cut t pre.length := ⟨by omega, by rwa [htake]⟩
  have hslice := slice_of_drop hdrop
  have hstop : s.Cut t (pre.length + u.length) :=
    hstart.of_slice (Nat.le_add_right _ _) hle (by rwa [hslice])
  constructor
  · rw [Text.slice_trimmed (Nat.le_add_right _ _) hle, hslice]
  · obtain ⟨-, -, -, hbefore, -⟩ := hstart.trimmed (w := ⟨_, _⟩) hstop (Nat.le_add_right _ _)
    rw [hbefore, before, htake]

end ObjectQuery
