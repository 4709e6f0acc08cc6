import ObjectQuery.Proofs.Text.Cells

/-! # Cutting a text loses nothing

* `Scanner.splitSpans_lossless`: with the delimiter between them, the pieces of a text are the text,
  and none of them can be split any further;
* `Scanner.wordSpans_partition`: the words of a text are what is left of it without blanks. -/

namespace ObjectQuery

variable {s : Scanner} {t d u : Text} {ws : List Span} {w : Span} {lo pos n : Nat} {f : Fault}

theorem Text.isValid_byteOffset_of_le (h : n ≤ t.length) :
    String.Pos.Raw.IsValid (String.ofList t) ⟨t.byteOffset n⟩ := by
  have hvalid := Text.isValid_byteOffset (t.take n) (t.drop n)
  rwa [List.take_append_drop, List.length_take, Nat.min_eq_left h] at hvalid

namespace Scanner

/-! ## Faults -/

theorem marks_eq_error : s.marks t = .error f ↔ s.validate t = .error f := by
  unfold validate
  cases s.marks t <;> simp [Except.map]

theorem splitSpans_eq_error : s.splitSpans t d = .error f ↔ s.validate t = .error f := by
  rw [← marks_eq_error, splitSpans]
  cases s.marks t <;> simp [bind, Except.bind, pure, Except.pure]

theorem wordSpans_eq_error : s.wordSpans t = .error f ↔ s.validate t = .error f := by
  rw [← marks_eq_error, wordSpans]
  cases s.marks t <;> simp [bind, Except.bind, pure, Except.pure]

/-! ## Pieces -/

/-- What splitting a text at a delimiter gives. -/
structure SplitsInto (s : Scanner) (t d : Text) (ws : List Span) : Prop where
  /-- Only the delimiter lies between one piece and the next. -/
  ordered : ws.IsChain fun v w => v.stop + d.length = w.start
  within : ∀ w ∈ ws, w.start ≤ w.stop ∧ w.stop ≤ t.length
  /-- A piece begins and ends between the bytes of two characters. -/
  boundaries : ∀ w ∈ ws, String.Pos.Raw.IsValid (String.ofList t) ⟨t.byteOffset w.start⟩ ∧
    String.Pos.Raw.IsValid (String.ofList t) ⟨t.byteOffset w.stop⟩
  joined : d.intercalate (ws.map (·.slice t)) = t
  balanced : ∀ w ∈ ws, s.validate (w.slice t) = .ok ()
  final : ∀ w ∈ ws, s.splitSpans (w.slice t) d = .ok [⟨0, (w.slice t).length⟩]
  placeholders : '?' ∉ d → ∃ counts,
    List.Forall₂ (fun w n => s.placeholders (w.slice t) = .ok n) ws counts ∧
      s.placeholders t = .ok counts.sum

theorem Pieces.exists_cons (h : s.Pieces d t lo ws) : ∃ w vs, ws = w :: vs ∧ w.start = lo := by
  cases h with
  | last | cons => exact ⟨_, _, rfl, rfl⟩

theorem Pieces.isChain (h : s.Pieces d t lo ws) :
    ws.IsChain fun v w => v.stop + d.length = w.start := by
  induction h with
  | last => exact .singleton _
  | cons _ _ _ _ _ h ih =>
    obtain ⟨w, vs, rfl, hw⟩ := h.exists_cons
    exact .cons_cons hw.symm ih

/-- With the delimiter between them, the pieces are the text. -/
theorem Pieces.intercalate (h : s.Pieces d t lo ws) :
    d.intercalate (ws.map (·.slice t)) = t.drop lo := by
  induction h with
  | last => simp [Span.slice]
  | @cons lo cut ws _ hle hcut _ hd h ih =>
    obtain ⟨v, vs, rfl, -⟩ := h.exists_cons
    obtain ⟨rest, hrest⟩ := hd
    rw [List.map_cons] at ih
    rw [List.map_cons, List.map_cons, List.intercalate_cons_cons, ih,
      drop_eq_slice_append hle hcut.le_length, ← List.drop_drop, ← hrest, List.drop_left,
      List.append_assoc]

theorem Pieces.mem (h : s.Pieces d t lo ws) (ht : s.Balanced t) (hw : w ∈ ws) :
    w.start ≤ w.stop ∧ s.Cut t w.start ∧ s.Cut t w.stop ∧ s.Uncut d (w.slice t) := by
  induction h with
  | last hlo hu =>
    rw [List.mem_singleton.1 hw]
    exact ⟨hlo.le_length, hlo, .length ht, hu⟩
  | cons hlo hle hcut hu _ _ ih =>
    rcases List.mem_cons.1 hw with rfl | hw
    · exact ⟨hle, hlo, hcut, hu⟩
    · exact ih hw

theorem exists_splitSpans (h : s.Balanced t) (d : Text) : ∃ ws, s.splitSpans t d = .ok ws := by
  rw [splitSpans, marks_eq_ok.2 ⟨h, rfl⟩]
  exact ⟨_, rfl⟩

/-- A text in which the delimiter does not occur is not split. -/
theorem Uncut.splitSpans (h : s.Uncut d t) (ht : s.Balanced t) (hd : d ≠ [])
    (hp : ∀ c ∈ d, IsPlain c) : s.splitSpans t d = .ok [⟨0, t.length⟩] := by
  obtain ⟨ws, hws⟩ := exists_splitSpans ht d
  cases (splitSpans_pieces hd hp hws).2 with
  | last => exact hws
  | @cons _ cut _ _ _ hcut _ hpre =>
    obtain ⟨post, hpost⟩ := hpre
    refine absurd hcut.balanced (h (t.take cut) post ?_)
    rw [hpost, List.take_append_drop]

/-- The placeholders of a text are those of its pieces. -/
theorem sum_count (hb : s.Between (Gap d) t 0 ws t.length) (hd : s.Neutral d) :
    (ws.map fun w => s.count (w.slice t)).sum = s.count t := by
  have hall := congrArg List.length (hb.ordinals (fun _ => Gap.neutral hd) .zero).2
  rw [ordinals_all, List.length_flatMap, List.length_range'] at hall
  simpa [ordinals] using hall

theorem Pieces.splitsInto (hd : d ≠ []) (hp : ∀ c ∈ d, IsPlain c) (ht : s.Balanced t)
    (h : s.Pieces d t 0 ws) : s.SplitsInto t d ws where
  ordered := h.isChain
  within w hw := by
    obtain ⟨hle, -, hstop, -⟩ := h.mem ht hw
    exact ⟨hle, hstop.le_length⟩
  boundaries w hw := by
    obtain ⟨-, hstart, hstop, -⟩ := h.mem ht hw
    exact ⟨Text.isValid_byteOffset_of_le hstart.le_length,
      Text.isValid_byteOffset_of_le hstop.le_length⟩
  joined := h.intercalate
  balanced w hw := by
    obtain ⟨hle, hstart, hstop, -⟩ := h.mem ht hw
    exact validate_eq_ok.2 (hstart.slice_balanced hstop hle)
  final w hw := by
    obtain ⟨hle, hstart, hstop, huncut⟩ := h.mem ht hw
    exact huncut.splitSpans (hstart.slice_balanced hstop hle) hd hp
  placeholders hq := by
    have hbetween := h.between ht (Nat.le_refl _) (.inl (slice_self ..))
    refine ⟨ws.map fun w => s.count (w.slice t), ?_, ?_⟩
    · refine List.forall₂_map_right_iff.2 (List.forall₂_same.2 fun w hw => ?_)
      obtain ⟨hle, hstart, hstop, -⟩ := h.mem ht hw
      exact placeholders_eq_ok.2 ⟨hstart.slice_balanced hstop hle, rfl⟩
    · have hsum := sum_count hbetween ⟨balanced_plain hp, count_eq_zero hq⟩
      exact placeholders_eq_ok.2 ⟨ht, hsum.symm⟩

/-- Splitting at a delimiter loses nothing and leaves nothing to split, and it fails where the text
has a fault. -/
theorem splitSpans_lossless (s : Scanner) (t d : Text) (hd : d ≠ []) (hp : ∀ c ∈ d, IsPlain c) :
    (∀ ws, s.splitSpans t d = .ok ws → s.SplitsInto t d ws) ∧
      ∀ fault, s.splitSpans t d = .error fault ↔ s.validate t = .error fault := by
  refine ⟨fun ws hws => ?_, fun _ => splitSpans_eq_error⟩
  obtain ⟨ht, hpieces⟩ := splitSpans_pieces hd hp hws
  exact hpieces.splitsInto hd hp ht

/-- Bars that overlap, bars in a literal and bars in a group. -/
theorem splitSpans_lossless_bars :
    "||".toList ≠ [] ∧ (∀ c ∈ "||".toList, IsPlain c) ∧
      SplitsInto {} "|||a '||' (b || ?) || c?".toList "||".toList [⟨0, 0⟩, ⟨2, 19⟩, ⟨21, 24⟩] := by
  have hd : "||".toList ≠ [] := by decide
  have hp : ∀ c ∈ "||".toList, IsPlain c := by simp [IsPlain, isQuote]
  exact ⟨hd, hp, (splitSpans_lossless {} _ _ hd hp).1 _ (by decide +kernel)⟩

/-! ## Words -/

/-- What cutting a text at its blanks gives. -/
structure SpansWords (s : Scanner) (t : Text) (ws : List Span) : Prop where
  within : ∀ w ∈ ws, w.start < w.stop ∧ w.stop ≤ t.length
  /-- There is at least one character between one word and the next. -/
  ordered : ws.Pairwise fun v w => v.stop < w.start
  /-- Outside the words there are only blanks. -/
  blank : ∀ i c, t[i]? = some c → (∀ w ∈ ws, i < w.start ∨ w.stop ≤ i) → isBlank c = true
  balanced : ∀ w ∈ ws, s.validate (w.slice t) = .ok ()
  whole : ∀ w ∈ ws, s.wordSpans (w.slice t) = .ok [⟨0, (w.slice t).length⟩]
  /-- Where nothing is open, the character that follows in a word is no blank. -/
  unbroken : ∀ w ∈ ws, ∀ pre c post, w.slice t = pre ++ c :: post → s.validate pre = .ok () →
    isBlank c = false

theorem Whole.wordSpans (h : s.Whole u) : s.wordSpans u = .ok [⟨0, u.length⟩] := by
  have hcells : s.Cells [⟨u, []⟩] := .cons h nofun (fun _ => rfl) .nil
  have hwords : s.wordSpans ([] ++ Cell.texts [⟨u, []⟩]) = .ok (Cell.spans 0 [⟨u, []⟩]) :=
    hcells.wordSpans nofun
  rw [List.nil_append, Cell.texts_word, Cell.texts_nil, List.append_nil, List.append_nil] at hwords
  rw [hwords, Cell.spans, Cell.spans, Nat.zero_add]

variable {cs : List Cell} {i : Nat} {c : Char}

theorem Cells.mem_spans (h : s.Cells cs) (ht : t.drop lo = Cell.texts cs)
    (hw : w ∈ Cell.spans lo cs) :
    lo ≤ w.start ∧ w.start < w.stop ∧ w.stop ≤ t.length ∧ s.Whole (w.slice t) := by
  induction h generalizing lo with
  | nil => cases hw
  | @cons c cs hword _ _ _ ih =>
    rcases List.mem_cons.1 hw with rfl | hw
    · have hpos := List.length_pos_iff.2 hword.ne_nil
      have hlen := congrArg List.length ht
      rw [List.length_drop, Cell.texts_word, List.length_append] at hlen
      refine ⟨Nat.le_refl _, by simp only; omega, by simp only; omega, ?_⟩
      rwa [slice_word ht]
    · obtain ⟨hle, hlt, hstop, hwhole⟩ := ih (drop_text ht) hw
      exact ⟨Nat.le_of_add_right_le hle, hlt, hstop, hwhole⟩

/-- Before another word a word has blanks. -/
theorem Cells.pairwise_spans (h : s.Cells cs) (ht : t.drop lo = Cell.texts cs) :
    (Cell.spans lo cs).Pairwise fun v w => v.stop < w.start := by
  induction h generalizing lo with
  | nil => exact .nil
  | @cons c cs _ _ hlast hcs ih =>
    refine .cons (fun w hw => ?_) (ih (drop_text ht))
    have hstart := (hcs.mem_spans (drop_text ht) hw).1
    have hgap : c.gap ≠ [] := fun he => by
      rw [hlast he] at hw
      cases hw
    have hpos := List.length_pos_iff.2 hgap
    rw [Cell.text, List.length_append] at hstart
    simp only
    omega

/-- What is outside the words is in the blanks after them. -/
theorem Cells.isBlank_of_outside (h : s.Cells cs) (ht : t.drop lo = Cell.texts cs) (hi : lo ≤ i)
    (hc : t[i]? = some c) (hout : ∀ w ∈ Cell.spans lo cs, i < w.start ∨ w.stop ≤ i) :
    isBlank c = true := by
  induction h generalizing lo with
  | nil =>
    have hlen := List.drop_eq_nil_iff.1 ht
    rw [List.getElem?_eq_none (by omega)] at hc
    cases hc
  | @cons cell cs _ hgap _ _ ih =>
    obtain ⟨hfirst, hrest⟩ := List.forall_mem_cons.1 hout
    have hafter : lo + cell.word.length ≤ i := by
      simp only at hfirst
      omega
    by_cases hnext : lo + cell.text.length ≤ i
    · exact ih (drop_text ht) hnext hrest
    · rw [Cell.text, List.length_append] at hnext
      have hget : cell.gap[i - lo - cell.word.length]? = some c := by
        have hsame : (t.drop lo)[i - lo]? = some c := by
          rwa [List.getElem?_drop, Nat.add_sub_of_le hi]
        rwa [ht, Cell.texts_word, List.getElem?_append_right (by omega),
          List.getElem?_append_left (by omega)] at hsame
      exact hgap c (List.mem_of_getElem? hget)

/-- The words of a text are what is left of it without the blanks where nothing is open, and they
are found unless the text has a fault. -/
theorem wordSpans_partition (s : Scanner) (t : Text) :
    (∀ ws, s.wordSpans t = .ok ws → s.SpansWords t ws) ∧
      ∀ fault, s.wordSpans t = .error fault ↔ s.validate t = .error fault := by
  refine ⟨fun ws hws => ?_, fun _ => wordSpans_eq_error⟩
  obtain ⟨lead, cs, rfl, hlead, hcs⟩ := (wordSpans_between hws).1.exists_cells
  obtain rfl : Cell.spans lead.length cs = ws :=
    Except.ok.inj ((hcs.wordSpans hlead).symm.trans hws)
  have hdrop : (lead ++ Cell.texts cs).drop lead.length = Cell.texts cs := List.drop_left
  have hmem {w : Span} (hw : w ∈ Cell.spans lead.length cs) := hcs.mem_spans hdrop hw
  constructor
  case within => exact fun w hw => ⟨(hmem hw).2.1, (hmem hw).2.2.1⟩
  case ordered => exact hcs.pairwise_spans hdrop
  case blank =>
    intro i c hc hout
    by_cases hi : lead.length ≤ i
    · exact hcs.isBlank_of_outside hdrop hi hc hout
    · rw [List.getElem?_append_left (by omega)] at hc
      exact hlead c (List.mem_of_getElem? hc)
  case balanced => exact fun w hw => validate_eq_ok.2 (hmem hw).2.2.2.balanced
  case whole => exact fun w hw => (hmem hw).2.2.2.wordSpans
  case unbroken =>
    intro w hw pre c post he hpre
    exact (hmem hw).2.2.2.unbroken pre c post he (validate_eq_ok.1 hpre)

end Scanner

end ObjectQuery
