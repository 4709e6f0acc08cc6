import ObjectQuery.Proofs.Query.Elements
import ObjectQuery.Proofs.Query.Segments
import ObjectQuery.Proofs.Text.Partition
import ObjectQuery.Resolve.Item

/-! # Counting what stands before a part

The ordinal of a placeholder is found by counting in the text before the part that holds it. Where
words begin and end, and where the pieces between commas begin, nothing is open: a text may be cut
in two there, and what is counted before is what a scan of the whole text marks to the left.

* `Scanner.Divides`: a position where a text may be cut in two;
* `Scanner.Cut.divides`: it is one where nothing is open;
* `Scanner.CountsLeft`, `validate_countsLeft`: where clauses, conditions and items begin. -/

namespace ObjectQuery

variable {s : Scanner} {t : Text} {q : Quoting} {ws words : List Span} {w span : Span}
  {ms ms' : List ClauseMark} {m : ClauseMark} {g : Segment} {part : Part} {lo hi i k n pos : Nat}

namespace Scanner

/-! ## Positions -/

/-- The number of placeholders that a scan of the text marks to the left of a position. -/
def leftOf (s : Scanner) (t : Text) (k : Nat) : Nat :=
  (s.scan t).marks.countP fun m => m.char == '?' && m.pos < k

/-- The text may be cut in two at the position: both parts are accepted, and the placeholders of the
whole are those to the left and those of the second part. -/
structure Divides (s : Scanner) (t : Text) (k : Nat) : Prop where
  le_length : k ≤ t.length
  left : s.validate (t.take k) = .ok ()
  right : s.validate (t.drop k) = .ok ()
  before : s.placeholders (t.take k) = .ok (s.leftOf t k)
  sum : ∃ n, s.placeholders (t.drop k) = .ok n ∧ s.placeholders t = .ok (s.leftOf t k + n)

theorem mem_questionsFrom (h : i ∈ s.questionsFrom q pos t) : pos ≤ i ∧ i < pos + t.length := by
  induction t generalizing q pos with
  | nil => cases h
  | cons c t ih =>
    have hrest (h : i ∈ s.questionsFrom (q.next s c) (pos + 1) t) :
        pos ≤ i ∧ i < pos + (t.length + 1) := by
      have := ih h
      omega
    rw [questionsFrom] at h
    split at h
    · rcases List.mem_cons.1 h with rfl | h
      · exact ⟨Nat.le_refl _, by simp⟩
      · exact hrest h
    · exact hrest h

/-- Left of a cut are the placeholders of the text before it. -/
theorem Cut.leftOf (h : s.Balanced t) (hk : s.Cut t k) : s.leftOf t k = s.before t k := by
  have hleft : s.leftOf t k = (s.questions t).countP (· < k) := by
    rw [Scanner.leftOf, ← h.questions, List.countP_map, List.countP_filter]
    refine List.countP_congr fun m _ => ?_
    simp [and_comm]
  have hlen : (t.take k).length = k := by rw [List.length_take, Nat.min_eq_left hk.le_length]
  have hsplit : s.questions t =
      s.questions (t.take k) ++ (s.questions (t.drop k)).map (k + ·) := by
    have happend := questions_append (b := t.drop k) hk.balanced.run
    rwa [List.take_append_drop, hlen] at happend
  have hfirst : (s.questions (t.take k)).countP (· < k) = s.before t k :=
    List.countP_eq_length.2 fun i hi => by
      have := (mem_questionsFrom hi).2
      simpa [hlen] using this
  have hsecond : ((s.questions (t.drop k)).map (k + ·)).countP (· < k) = 0 :=
    List.countP_eq_zero.2 fun i hi => by
      obtain ⟨j, -, rfl⟩ := List.mem_map.1 hi
      simp
  rw [hleft, hsplit, List.countP_append, hfirst, hsecond, Nat.add_zero]

theorem Cut.divides (h : s.Balanced t) (hk : s.Cut t k) : s.Divides t k := by
  have hsplit : t.take k ++ t.drop k = t := List.take_append_drop k t
  have hright : s.Balanced (t.drop k) := hk.balanced.of_append_left (hsplit.symm ▸ h)
  have hcount : s.count t = s.leftOf t k + s.count (t.drop k) := by
    rw [hk.leftOf h, before, ← count_append hk.balanced.run, hsplit]
  exact ⟨hk.le_length, validate_eq_ok.2 hk.balanced, validate_eq_ok.2 hright,
    placeholders_eq_ok.2 ⟨hk.balanced, (hk.leftOf h).symm⟩,
    _, placeholders_eq_ok.2 ⟨hright, rfl⟩, placeholders_eq_ok.2 ⟨h, hcount⟩⟩

/-! ## Words and pieces -/

theorem exists_wordSpans (h : s.Balanced t) : ∃ ws, s.wordSpans t = .ok ws := by
  rw [wordSpans, marks_eq_ok.2 ⟨h, rfl⟩]
  exact ⟨_, rfl⟩

theorem mem_wordSpans (h : s.wordSpans t = .ok ws) (hw : w ∈ ws) :
    s.Cut t w.start ∧ s.Cut t w.stop :=
  ((wordSpans_between h).2.mem hw).2

theorem mem_splitSpans (h : s.splitSpans t [','] = .ok ws) (hw : w ∈ ws) :
    s.Cut t (w.trimmed t).start := by
  obtain ⟨hle, hstart, hstop⟩ :=
    (splitSpans_between (List.cons_ne_nil _ _) isPlain_comma h).2.mem hw
  exact (hstart.trimmed hstop hle).2.1

end Scanner

/-! ## Clauses -/

/-- A clause among others begins and ends where nothing is open. -/
theorem cut_of_contents (h : s.Between Tame t lo (contents t.length ms') hi)
    (hm : m :: ms <:+ ms') : m.contentStart ≤ firstKeyword t.length ms ∧
      s.Cut t m.contentStart ∧ s.Cut t (firstKeyword t.length ms) := by
  induction ms' generalizing lo with
  | nil => cases List.suffix_nil.1 hm
  | cons n ns ih =>
    obtain ⟨-, hle, hstart, hstop, hrest⟩ := h
    rcases List.suffix_cons_iff.1 hm with he | hm
    · cases he
      exact ⟨hle, hstart, hstop⟩
    · exact ih hrest hm

theorem cut_of_clauseMarks (h : s.wordSpans t = .ok ws) (hm : m :: ms <:+ clauseMarks t ws) :
    m.contentStart ≤ firstKeyword t.length ms ∧ s.Cut t m.contentStart ∧
      s.Cut t (firstKeyword t.length ms) :=
  cut_of_contents (clauseMarks_between .zero (Scanner.wordSpans_between h).2).2.2 hm

/-! ## Conditions -/

/-- Where the text before each word can be cut off, a condition at the front of the words is read with
the placeholders to its left, and counting them does not fail. -/
theorem readCondition_counts (clause : Clause) (join : Option JoinKind)
    (h : ∀ w ∈ words, s.Divides part.segment.text (part.start + w.start)) :
    (∀ fault, readCondition s clause join part words ≠ malformed clause (.unbalanced fault)) ∧
      ∀ c rest, readCondition s clause join part words = .ok (some c, rest) →
        ∃ first ∈ words, ∃ last ∈ words, c.segment =
          ⟨(Span.mk first.start last.stop).slice part.text,
            part.segment.firstParam + s.leftOf part.segment.text (part.start + first.start)⟩ := by
  unfold readCondition
  cases words with
  | nil => exact ⟨nofun, nofun⟩
  | cons w words =>
    dsimp only
    split
    · exact ⟨nofun, nofun⟩
    · split
      · exact ⟨nofun, nofun⟩
      · split
        · rename_i first more last hcond hlast
          have hspan : words.takeWhile (fun w => !(w.slice part.text).isWord "INDEXBY") =
              first :: more := by
            rwa [List.span_eq_takeWhile_dropWhile] at hcond
          have hmem : ∀ v ∈ first :: more, v ∈ w :: words := fun v hv =>
            List.mem_cons_of_mem w ((List.takeWhile_sublist _).subset (hspan.symm ▸ hv))
          have hfirst := hmem first List.mem_cons_self
          rw [hcond] at hlast
          rw [(h first hfirst).before]
          refine ⟨nofun, fun c rest hc => ?_⟩
          cases hc
          exact ⟨first, hfirst, last, hmem last (List.mem_of_getLast? hlast), rfl⟩
        · exact ⟨nofun, nofun⟩

/-! ## Items -/

theorem Except.mapM_congr {ε α β : Type} {f f' : α → Except ε β} {as : List α}
    (h : ∀ a ∈ as, f a = f' a) : as.mapM f = as.mapM f' := by
  induction as with
  | nil => rfl
  | cons a as ih =>
    obtain ⟨ha, has⟩ := List.forall_mem_cons.1 h
    rw [List.mapM_cons, List.mapM_cons, ha, ih has]

/-- The item that a span stands for, when the placeholders before it are those to its left. -/
def itemAt (s : Scanner) (clause : Clause) (param : Nat) (g : Segment) (span : Span) :
    Except QueryError Item :=
  let span := span.trimmed g.text
  if span.isEmpty then malformed clause .emptyItem
  else .ok ⟨span.slice g.text, param + g.firstParam + s.leftOf g.text span.start⟩

theorem segmentItem_eq {clause : Clause} {param : Nat}
    (h : s.Divides g.text (span.trimmed g.text).start) :
    segmentItem s clause param g span = itemAt s clause param g span := by
  simp only [segmentItem, itemAt, h.before]
  rfl

/-! ## All parts -/

namespace Scanner

/-- Words and pieces of the text begin, and words end, where it may be cut in two, and what is counted
before the parts of a query are the placeholders to the left. -/
structure CountsLeft (s : Scanner) (t : Text) : Prop where
  words : ∃ ws, s.wordSpans t = .ok ws ∧ ∀ w ∈ ws, s.Divides t w.start ∧ s.Divides t w.stop
  pieces : ∃ ws, s.splitSpans t [','] = .ok ws ∧ ∀ w ∈ ws, s.Divides t (w.trimmed t).start
  /-- The clauses of a query. -/
  clauses : ∀ ws, s.wordSpans t = .ok ws → ∀ m ms, m :: ms <:+ clauseMarks t ws → ∀ seen d,
    let span := (Span.mk m.contentStart (firstKeyword t.length ms)).trimmed t
    s.Divides t span.start ∧ Draft.readAll s t seen d (m :: ms) =
      if m.clause ∈ seen then malformed m.clause .repeatedClause
      else if span.slice t = [] then malformed m.clause .emptyClause
      else d.read s m.clause ⟨span.slice t, s.leftOf t span.start⟩ >>= fun d =>
        Draft.readAll s t (m.clause :: seen) d ms
  /-- The conditions in the parts of a `FROM` clause. -/
  conditions : ∀ param spans, s.splitSpans t [','] = .ok spans → ∀ span ∈ spans, ∀ part words,
    readPart s ⟨t, param⟩ span = .ok (part, words) → ∀ ws ⊆ words, ∀ clause join,
      (∀ w ∈ ws, s.Divides t (part.start + w.start)) ∧
      (∀ fault, readCondition s clause join part ws ≠ malformed clause (.unbalanced fault)) ∧
      ∀ c rest, readCondition s clause join part ws = .ok (some c, rest) →
        ∃ first ∈ ws, ∃ last ∈ ws, c.segment =
          ⟨(Span.mk first.start last.stop).slice part.text,
            param + s.leftOf t (part.start + first.start)⟩
  /-- The items of a clause. -/
  items : ∀ param spans, s.splitSpans t [','] = .ok spans → ∀ clause base,
    segmentItems s clause base ⟨t, param⟩ = spans.mapM (itemAt s clause base ⟨t, param⟩)

/-- In a text that is accepted, every part that is cut off at a word or a comma is numbered by the
placeholders to its left. -/
theorem validate_countsLeft (h : s.validate t = .ok ()) : s.CountsLeft t := by
  have hb : s.Balanced t := validate_eq_ok.1 h
  obtain ⟨ws, hws⟩ := exists_wordSpans hb
  obtain ⟨ps, hps⟩ := exists_splitSpans hb [',']
  refine ⟨⟨ws, hws, fun w hw => ?_⟩, ⟨ps, hps, fun w hw => (mem_splitSpans hps hw).divides hb⟩,
    ?_, ?_, ?_⟩
  · obtain ⟨hstart, hstop⟩ := mem_wordSpans hws hw
    exact ⟨hstart.divides hb, hstop.divides hb⟩
  · intro ws hws m ms hm seen d span
    obtain ⟨hle, hstart, hstop⟩ := cut_of_clauseMarks hws hm
    have hcut : s.Cut t span.start := (Cut.trimmed hstart hstop hle).2.1
    refine ⟨hcut.divides hb, ?_⟩
    rw [hcut.leftOf hb]
    exact Draft.readAll_cons hstart hstop hle
  · intro param spans hspans span hspan part words hpart ws hsub clause join
    obtain ⟨-, rfl, hwords⟩ := readPart_eq_ok.1 hpart
    have hdivides : ∀ w ∈ ws, s.Divides t ((span.trimmed t).start + w.start) := fun w hw =>
      ((mem_splitSpans hspans hspan).add (mem_wordSpans hwords (hsub hw)).1).divides hb
    exact ⟨hdivides, readCondition_counts clause join hdivides⟩
  · intro param spans hspans clause base
    rw [segmentItems, hspans]
    exact Except.mapM_congr fun span hspan =>
      segmentItem_eq ((mem_splitSpans hspans hspan).divides hb)

end Scanner

/-- A query with a literal that holds a comma and a `?`, and with placeholders on both sides of words
and commas. -/
def Sample.questions : Text :=
  ("SELECT CONCAT(u.name, ?), 'a, ?' FROM User u " ++
    "JOIN u.phones p ON p.number = ? WHERE u.id = ?").toList

theorem Scanner.validate_countsLeft_questions :
    ({} : Scanner).validate Sample.questions = .ok () ∧ ({} : Scanner).CountsLeft Sample.questions :=
  have h : ({} : Scanner).validate Sample.questions = .ok () := by decide +kernel
  ⟨h, validate_countsLeft h⟩

end ObjectQuery
