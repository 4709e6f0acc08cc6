import ObjectQuery.Proofs.Query.Sources
import ObjectQuery.Resolve.Item

/-! # Where the items of a clause stand

The items of a clause are parts of it with the right ordinals, and hold all its placeholders, in
order. What is cut off at the end of an item, a name or a direction, is tame.

* `segmentItems_spec`: the items of a clause;
* `splitAlias_spec`, `splitDirection_spec`: an item without what follows its expression. -/

namespace ObjectQuery

variable {s : Scanner} {t u : Text} {ws ws' : List Span} {k param : Nat}

/-- An item as a segment. -/
def Item.segment (i : Item) : Segment := ⟨i.text, i.param⟩

/-! ## Items -/

theorem segmentItem_spec {clause : Clause} {g : Segment} {w : Span} {i : Item}
    (hw : w.start ≤ w.stop ∧ s.Cut g.text w.start ∧ s.Cut g.text w.stop)
    (h : segmentItem s clause param g w = .ok i) :
    i.segment.Lies s (param + g.firstParam) g.text ∧
      i.segment.ordinals s = (s.ordinals g.text w).map (param + g.firstParam + ·) := by
  obtain ⟨hle, hstart, hstop⟩ := hw
  obtain ⟨hle', hstart', hstop', -⟩ := hstart.trimmed hstop hle
  simp only [segmentItem] at h
  split at h
  · cases h
  · obtain ⟨before, hbefore, h⟩ := Except.bind_eq_ok.1 h
    cases h
    have hb := (Scanner.placeholders_eq_ok.1 (Except.inClause_eq_ok.1 hbefore)).2
    refine ⟨⟨_, _, hstart'.stands hstop' hle', congrArg _ hb.symm⟩, ?_⟩
    rw [← hstart.ordinals_trimmed hstop hle, Scanner.ordinals, List.map_add_range',
      Scanner.before, hb]
    rfl

/-- The items of a clause stand in it one after the other. -/
theorem segmentItems_spec {clause : Clause} {g : Segment} {items : List Item}
    (h : segmentItems s clause param g = .ok items) :
    s.Balanced g.text ∧ (∀ i ∈ items, i.segment.Lies s (param + g.firstParam) g.text) ∧
      items.flatMap (·.segment.ordinals s) =
        List.range' (param + g.firstParam) (s.count g.text) := by
  have hcomma : s.Neutral [','] := Tame.neutral (by simp [Tame, IsPlain, isQuote])
  obtain ⟨spans, hspans, hitems⟩ := Except.bind_eq_ok.1 h
  clear h
  rw [Except.inClause_eq_ok] at hspans
  obtain ⟨hb, hbetween⟩ :=
    Scanner.splitSpans_between (List.cons_ne_nil _ _) (by simp [IsPlain, isQuote]) hspans
  obtain ⟨-, hall⟩ := hbetween.ordinals (fun _ => Scanner.Gap.neutral hcomma) .zero
  have hmem := fun w (hw : w ∈ spans) => hbetween.mem hw
  replace hitems := Except.mapM_eq_ok.1 hitems
  replace hitems : (∀ i ∈ items, i.segment.Lies s (param + g.firstParam) g.text) ∧
      items.flatMap (·.segment.ordinals s) =
        (spans.flatMap (s.ordinals g.text)).map (param + g.firstParam + ·) := by
    clear hall hbetween hspans hb
    induction hitems with
    | nil => exact ⟨List.forall_mem_nil _, rfl⟩
    | cons hi _ ih =>
      obtain ⟨ih1, ih2⟩ := ih fun w hw => hmem w (List.mem_cons_of_mem _ hw)
      obtain ⟨h1, h2⟩ := segmentItem_spec (hmem _ List.mem_cons_self) hi
      refine ⟨fun j hj => (List.mem_cons.1 hj).elim (· ▸ h1) (ih1 j), ?_⟩
      rw [List.flatMap_cons, List.flatMap_cons, List.map_append, h2, ih2]
  refine ⟨hb, hitems.1, ?_⟩
  rw [hitems.2, hall, Scanner.ordinals_all, List.map_add_range', Nat.add_zero]

theorem spansBetween_ne_nil {size width start : Nat} {cuts : List Nat} :
    spansBetween size width start cuts ≠ [] := by
  cases cuts <;> exact List.cons_ne_nil _ _

/-- A clause that is a list has some item. -/
theorem segmentItems_ne_nil {clause : Clause} {g : Segment} {items : List Item}
    (h : segmentItems s clause param g = .ok items) : items ≠ [] := by
  obtain ⟨spans, hspans, hitems⟩ := Except.bind_eq_ok.1 h
  obtain ⟨marks, -, he⟩ := Except.bind_eq_ok.1 (Except.inClause_eq_ok.1 hspans)
  cases Except.pure_eq_ok.1 he
  rintro rfl
  exact spansBetween_ne_nil (List.forall₂_nil_right_iff.1 (Except.mapM_eq_ok.1 hitems))

/-! ## What follows an expression -/

namespace Scanner

/-- When tame words are all that follows a word, all placeholders stand before it. -/
theorem Between.before_of_tame {first : Span} {more : List Span}
    (h : s.Between Blank t 0 (ws ++ first :: more) t.length)
    (ht : ∀ w ∈ first :: more, Tame (w.slice t)) :
    s.Cut t first.start ∧ s.before t first.start = s.count t := by
  obtain ⟨mid, -, hmid, h⟩ := h.split blank_nil .zero
  obtain ⟨⟨hle, hgap⟩, h2, hcut, h3⟩ := h
  refine ⟨hcut, ?_⟩
  obtain ⟨-, hord⟩ := Between.ordinals (fun _ => Blank.neutral) hcut
    (show s.Between Blank t first.start (first :: more) t.length from
      ⟨⟨Nat.le_refl _, by rw [slice_self]; exact blank_nil⟩, h2, hcut, h3⟩)
  rw [flatMap_ordinals_of_tame ht, Scanner.ordinals] at hord
  have hzero := congrArg List.length hord
  rw [List.length_range', List.length_nil] at hzero
  have hcount := hcut.before_add hcut.le_length
  rwa [← hzero, Nat.add_zero, before_length, eq_comm] at hcount

/-- What stands before a place, trimmed, with all its placeholders. -/
theorem Cut.stands_trim (h : s.Cut t k) (hb : s.before t k = s.count t) :
    (∃ pos, s.Stands t pos 0 (Text.trim (t.take k))) ∧
      s.count (Text.trim (t.take k)) = s.count t := by
  have hs := Cut.zero.stands h (Nat.zero_le _)
  rw [Span.slice, List.drop_zero, before_zero] at hs
  obtain ⟨⟨pos, hpos⟩, hc⟩ := h.balanced.stands_trim
  exact ⟨⟨_, hs.trans hpos⟩, hc.trans hb⟩

end Scanner

/-- The text is what an item holds besides tame words at its end. -/
structure Item.Core (s : Scanner) (item t : Text) : Prop where
  stands : ∃ pos, s.Stands item pos 0 t
  count : s.count t = s.count item

theorem Item.Core.refl (h : s.Balanced t) : Item.Core s t t := ⟨⟨_, .refl h⟩, rfl⟩

theorem splitAlias_spec {name : Option String} (h : splitAlias s t = .ok (u, name)) :
    Item.Core s t u := by
  obtain ⟨ws, hws, h⟩ := Except.bind_eq_ok.1 h
  obtain ⟨hb, hbetween⟩ := Scanner.wordSpans_between hws
  split at h
  · rename_i last previous rest hrev
    have hws : ws = rest.reverse ++ [previous, last] := by
      simpa using congrArg List.reverse hrev
    rw [hws] at hbetween
    dsimp only at h
    split at h
    · rename_i hc
      simp only [Bool.and_eq_true] at hc
      cases h
      obtain ⟨hcut, hcount⟩ := hbetween.before_of_tame fun w hw => by
        rcases List.mem_cons.1 hw with rfl | hw
        · exact Text.tame_of_isWord hc.1.2 (by decide)
        · rw [List.mem_singleton.1 hw]
          exact Text.tame_of_isIdentifier hc.2
      obtain ⟨hs, hc⟩ := hcut.stands_trim hcount
      exact ⟨hs, hc⟩
    · split at h
      · rename_i hc
        simp only [Bool.and_eq_true] at hc
        cases h
        rw [show rest.reverse ++ [previous, last] = (rest.reverse ++ [previous]) ++ [last] by simp]
          at hbetween
        obtain ⟨hcut, hcount⟩ := hbetween.before_of_tame fun w hw => by
          rw [List.mem_singleton.1 hw]
          exact Text.tame_of_isIdentifier hc.1.1
        obtain ⟨hs, hc⟩ := hcut.stands_trim hcount
        exact ⟨hs, hc⟩
      · cases h
        exact .refl hb
  · cases h
    exact .refl hb

theorem tame_of_isDirectionWord (h : isDirectionWord t = true) : Tame t := by
  simp only [isDirectionWord, List.any_cons, List.any_nil, Bool.or_eq_true, Bool.or_false] at h
  rcases h with h | h | h | h | h <;> exact Text.tame_of_isWord h (by decide)

theorem tame_intercalate {sep : String} {l : List String} (hsep : Tame sep.toList)
    (h : ∀ x ∈ l, Tame x.toList) : Tame (sep.intercalate l).toList := by
  rw [String.toList_intercalate]
  intro c hc
  induction l with
  | nil => cases hc
  | cons a l ih =>
    cases l with
    | nil =>
      simp only [List.map_cons, List.map_nil, List.intercalate_singleton] at hc
      exact h a List.mem_cons_self c hc
    | cons b l =>
      rw [List.map_cons, List.map_cons, List.intercalate_cons_cons, List.mem_append,
        List.mem_append] at hc
      rcases hc with (hc | hc) | hc
      · exact h a List.mem_cons_self c hc
      · exact hsep c hc
      · exact ih (fun x hx => h x (List.mem_cons_of_mem _ hx)) hc

theorem splitDirection_spec {direction : Option String}
    (h : splitDirection s t = .ok (u, direction)) :
    Item.Core s t u ∧ ∀ d ∈ direction, Tame d.toList := by
  obtain ⟨ws, hws, h⟩ := Except.bind_eq_ok.1 h
  obtain ⟨hb, hbetween⟩ := Scanner.wordSpans_between hws
  generalize hp : (fun w : Span => isDirectionWord (w.slice t)) = p at h
  have hsuffix : ((ws.drop 1).reverse.takeWhile p).reverse <:+ ws := by
    refine List.IsSuffix.trans ?_ (List.drop_suffix 1 ws)
    have := List.reverse_suffix.2 (List.takeWhile_prefix (l := (ws.drop 1).reverse) p)
    rwa [List.reverse_reverse] at this
  have hmem : ∀ w ∈ ((ws.drop 1).reverse.takeWhile p).reverse, Tame (w.slice t) := by
    intro w hw
    have := List.all_eq_true.1 List.all_takeWhile w (List.mem_reverse.1 hw)
    rw [← hp] at this
    exact tame_of_isDirectionWord this
  dsimp only at h
  split at h
  · cases h
    exact ⟨.refl hb, nofun⟩
  · rename_i first rest hrev
    cases h
    rw [hrev] at hsuffix hmem
    obtain ⟨pre, rfl⟩ := hsuffix
    obtain ⟨hcut, hcount⟩ := hbetween.before_of_tame hmem
    obtain ⟨hs, hc⟩ := hcut.stands_trim hcount
    refine ⟨⟨hs, hc⟩, ?_⟩
    rintro _ ⟨⟩
    refine tame_intercalate (by decide) fun x hx => ?_
    obtain ⟨w, hw, rfl⟩ := List.mem_map.1 hx
    rw [String.toList_ofList]
    exact (hmem w hw).map_toUpper

end ObjectQuery
