import ObjectQuery.Proofs.Query.Written

/-! # The clauses of a query are those of its text

Reading a query finds all clauses that are written, and keeps of each the trimmed content with the
number of placeholders before it. So the text of a query that was read can be put together from what
it holds and the keywords.

* `sections_marks`: the segments of the clauses of a text;
* `Draft.readAll_eq`, `Draft.readSections_spec`: reading them one after the other;
* `readDistinct_cells`, `readCount_eq_ok`: the clauses that are not kept as they are;
* `Query.parse_cells`: reading a text of clauses, `Query.parse_written`: all texts that are read. -/

namespace ObjectQuery

variable {s : Scanner} {t u v w : Text} {c : Clause} {ws kw : List Text}

/-! ## Sections -/

/-- The clauses of a query with their segments, as they follow after `param` placeholders. -/
def WrittenClause.sections (s : Scanner) : Nat → List WrittenClause → List (Clause × Segment)
  | _, [] => []
  | param, c :: cs =>
    (c.clause, ⟨Text.trim c.content, param⟩) :: sections s (param + s.count c.content) cs

theorem WrittenClause.Proper.balanced {c : WrittenClause} (h : c.Proper s) : s.Balanced c.text :=
  h.spelled.tame.neutral.1.append h.keyless.balanced

theorem WrittenClause.balanced_texts {cs : List WrittenClause} (h : ∀ c ∈ cs, c.Proper s) :
    s.Balanced (WrittenClause.texts cs) := by
  induction cs with
  | nil => exact Scanner.balanced_nil
  | cons c cs ih =>
    obtain ⟨hc, hcs⟩ := List.forall_mem_cons.1 h
    exact hc.balanced.append (ih hcs)

/-- The segments of the clauses that are found in a text are their trimmed contents. -/
theorem sections_marks {pre : Text} {cs : List WrittenClause} (hpre : s.Balanced pre)
    (h : ∀ c ∈ cs, c.Proper s) (ht : t = pre ++ WrittenClause.texts cs) :
    sections s t (WrittenClause.marks pre.length cs) =
      WrittenClause.sections s (s.count pre) cs := by
  induction cs generalizing pre with
  | nil => rfl
  | cons c cs ih =>
    obtain ⟨hc, hcs⟩ := List.forall_mem_cons.1 h
    have hkeyword : s.Neutral c.keyword := hc.spelled.tame.neutral
    have hsplit : t = (pre ++ c.keyword) ++ (c.content ++ WrittenClause.texts cs) := by
      rw [ht, WrittenClause.texts_cons, List.append_assoc]
    have hrest : t = (pre ++ c.text) ++ WrittenClause.texts cs := by
      rw [hsplit, WrittenClause.text, ← List.append_assoc, ← List.append_assoc]
    have hlen : (pre ++ c.text).length = (pre ++ c.keyword).length + c.content.length := by
      rw [WrittenClause.text, ← List.append_assoc, List.length_append]
    have hstop : firstKeyword t.length (WrittenClause.marks (pre ++ c.text).length cs) =
        (pre ++ c.keyword).length + c.content.length := by
      cases cs with
      | nil =>
        rw [← hlen, hrest, WrittenClause.texts, List.flatMap_nil, List.append_nil]
        rfl
      | cons d cs => exact hlen
    have hparam : s.count (pre ++ c.text) = s.count pre + s.count c.content := by
      rw [Scanner.count_append hpre.run, WrittenClause.text, Scanner.count_append hkeyword.1.run,
        hkeyword.2, Nat.zero_add]
    obtain ⟨hslice, hbefore⟩ :=
      Scanner.slice_trimmed_part (hpre.append hkeyword.1) hc.keyless.balanced hsplit
    rw [Scanner.count_append hpre.run, hkeyword.2, Nat.add_zero] at hbefore
    rw [List.length_append] at hstop hslice hbefore
    have ih := ih (hpre.append hc.balanced) hcs hrest
    rw [List.length_append] at hstop ih
    rw [WrittenClause.marks, sections, WrittenClause.sections, hstop, hslice, hbefore, ih, hparam]

/-! ## Reading the sections -/

namespace Draft

variable {d d' d'' : Draft} {c' : Clause} {g : Segment} {xs : List (Clause × Segment)}
  {ms : List ClauseMark} {seen : List Clause} {lo hi : Nat}

/-- Two drafts have the same clause. -/
def Same (d d' : Draft) : Clause → Prop
  | .select => d'.distinct = d.distinct ∧ d'.select = d.select
  | .from => d'.source = d.source
  | .where => d'.filter = d.filter
  | .groupBy => d'.groupBy = d.groupBy
  | .having => d'.having = d.having
  | .orderBy => d'.orderBy = d.orderBy
  | .limit => d'.limit = d.limit
  | .offset => d'.offset = d.offset
  | .query | .join | .indexBy => True

theorem Same.refl (d : Draft) (c : Clause) : Same d d c := by
  cases c <;> first | rfl | trivial

theorem Same.trans (h : Same d d' c) (h' : Same d' d'' c) : Same d d'' c := by
  cases c <;> first
    | trivial
    | exact Eq.trans h' h
    | exact ⟨h'.1.trans h.1, h'.2.trans h.2⟩

/-- Reading a clause leaves the others as they are. -/
theorem same_of_read (h : d.read s c g = .ok d') (hc : c' ≠ c) : Same d d' c' := by
  cases c with
  | select | «from» | limit | offset =>
    obtain ⟨_, -, h⟩ := Except.bind_eq_ok.1 h
    cases h
    cases c' <;> first | exact absurd rfl hc | trivial
  | «where» | groupBy | having | orderBy | query | join | indexBy =>
    cases h
    cases c' <;> first | exact absurd rfl hc | trivial

/-- Reads some sections one after the other. -/
def readSections (s : Scanner) (d : Draft) (xs : List (Clause × Segment)) :
    Except QueryError Draft :=
  xs.foldlM (fun d x => d.read s x.1 x.2) d

/-- Of different clauses, each is as it was read, and all others as they were. -/
theorem readSections_spec (h : readSections s d xs = .ok d') (hnodup : (xs.map (·.1)).Nodup) :
    (∀ x ∈ xs, ∃ d₀ d₁ : Draft, d₀.read s x.1 x.2 = .ok d₁ ∧ Same d₁ d' x.1) ∧
      ∀ c, c ∉ xs.map (·.1) → Same d d' c := by
  induction xs generalizing d with
  | nil =>
    cases h
    exact ⟨nofun, fun c _ => .refl _ c⟩
  | cons x xs ih =>
    rw [readSections, List.foldlM_cons] at h
    obtain ⟨d₁, hread, h⟩ := Except.bind_eq_ok.1 h
    obtain ⟨hx, hnodup⟩ := List.nodup_cons.1 hnodup
    obtain ⟨hall, hrest⟩ := ih h hnodup
    refine ⟨List.forall_mem_cons.2 ⟨⟨d, d₁, hread, hrest _ hx⟩, hall⟩, fun c hc => ?_⟩
    rw [List.map_cons, List.mem_cons, not_or] at hc
    exact (same_of_read hread hc.1).trans (hrest c hc.2)

/-- Whether a section is empty. -/
theorem isEmpty_trimmed {w : Span} (hlo : s.Cut t w.start) (hhi : s.Cut t w.stop)
    (h : w.start ≤ w.stop) : (w.trimmed t).isEmpty = true ↔ (w.trimmed t).slice t = [] := by
  obtain ⟨hle, -, hstop, -⟩ := hlo.trimmed hhi h
  rw [← List.length_eq_zero_iff, Scanner.length_slice hstop.le_length, Span.isEmpty,
    decide_eq_true_eq]
  omega

/-- Reads the first of some clauses. -/
theorem readAll_cons {m : ClauseMark} (hlo : s.Cut t m.contentStart)
    (hhi : s.Cut t (firstKeyword t.length ms)) (hle : m.contentStart ≤ firstKeyword t.length ms) :
    readAll s t seen d (m :: ms) =
      let span := (Span.mk m.contentStart (firstKeyword t.length ms)).trimmed t
      if m.clause ∈ seen then malformed m.clause .repeatedClause
      else if span.slice t = [] then malformed m.clause .emptyClause
      else d.read s m.clause ⟨span.slice t, s.before t span.start⟩ >>= fun d =>
        readAll s t (m.clause :: seen) d ms := by
  let raw : Span := ⟨m.contentStart, firstKeyword t.length ms⟩
  have hstart : s.Cut t (raw.trimmed t).start := (Scanner.Cut.trimmed hlo hhi hle).2.1
  have hempty : (raw.trimmed t).isEmpty = true ↔ (raw.trimmed t).slice t = [] :=
    isEmpty_trimmed hlo hhi hle
  have hplaceholders : s.placeholders (t.take (raw.trimmed t).start) =
      .ok (s.before t (raw.trimmed t).start) :=
    Scanner.placeholders_eq_ok.2 ⟨hstart.balanced, rfl⟩
  rw [readAll]
  simp only [List.contains_iff_mem]
  refine if_congr Iff.rfl rfl (if_congr hempty rfl ?_)
  exact congrArg (Except.inClause .query · >>= _) hplaceholders

/-- Reading the clauses that are marked in a text is reading their sections, when no clause is
repeated or empty. -/
theorem readAll_eq (h : s.Between Tame t lo (contents t.length ms) hi)
    (hseen : ∀ m ∈ ms, m.clause ∉ seen) (hnodup : (ms.map (·.clause)).Nodup)
    (hne : ∀ x ∈ sections s t ms, x.2.text ≠ []) :
    readAll s t seen d ms = readSections s d (sections s t ms) := by
  induction ms generalizing lo seen d with
  | nil => rfl
  | cons m ms ih =>
    obtain ⟨-, h2, h3, h4, h5⟩ := h
    obtain ⟨hm, hnodup⟩ := List.nodup_cons.1 hnodup
    obtain ⟨hmseen, hseen⟩ := List.forall_mem_cons.1 hseen
    obtain ⟨hmne, hne⟩ := List.forall_mem_cons.1 hne
    have hseen' : ∀ n ∈ ms, n.clause ∉ m.clause :: seen := by
      intro n hn hmem
      rcases List.mem_cons.1 hmem with he | hmem
      · exact hm (List.mem_map.2 ⟨n, hn, he⟩)
      · exact hseen n hn hmem
    rw [readAll_cons h3 h4 h2]
    simp only [hmseen, if_false, show ¬ _ = [] from hmne, ih h5 hseen' hnodup hne]
    rfl

/-- No clause that was read is empty. -/
theorem sections_ne_nil (h : s.Between Tame t lo (contents t.length ms) hi)
    (hread : readAll s t seen d ms = .ok d') : ∀ x ∈ sections s t ms, x.2.text ≠ [] := by
  induction ms generalizing lo seen d with
  | nil => exact nofun
  | cons m ms ih =>
    obtain ⟨-, h2, h3, h4, h5⟩ := h
    rw [readAll_cons h3 h4 h2] at hread
    simp only at hread
    split at hread
    · cases hread
    · split at hread
      · cases hread
      · rename_i hne
        obtain ⟨_, -, hrest⟩ := Except.bind_eq_ok.1 hread
        exact List.forall_mem_cons.2 ⟨hne, ih h5 hrest⟩

end Draft

/-! ## Distinct rows and counts -/

/-- The text of a `SELECT` clause without a first word `DISTINCT`. -/
theorem readDistinct_cells {lead : Text} {k : Cell} {cs : List Cell} {param : Nat}
    (hlead : Scanner.Blank lead) (h : s.Cells (k :: cs)) :
    readDistinct s ⟨lead ++ Cell.texts (k :: cs), param⟩ =
      if k.word.isWord "DISTINCT" then
        if Text.trim (k.gap ++ Cell.texts cs) = [] then malformed .select .emptyDistinct
        else .ok (true, ⟨Text.trim (k.gap ++ Cell.texts cs), param⟩)
      else .ok (false, ⟨lead ++ Cell.texts (k :: cs), param⟩) := by
  have hdrop : (lead ++ Cell.texts (k :: cs)).drop lead.length = Cell.texts (k :: cs) :=
    List.drop_left
  have hrest := Scanner.drop_of_drop (hdrop.trans (Cell.texts_word k cs))
  rw [readDistinct, h.wordSpans hlead]
  simp only [Except.inClause, Except.mapError, bind, Except.bind, Cell.spans,
    Scanner.slice_word hdrop, hrest, List.isEmpty_iff]
  rfl

/-- What a `SELECT` clause gives: whether it starts with the word `DISTINCT`, and the text without
that word. -/
inductive SelectText (s : Scanner) (t : Text) : Bool → Text → Prop
  | all (h : ∀ w ∈ (s.topWords t).head?, w.isWord "DISTINCT" = false) : SelectText s t false t
  | distinct {word rest : Text} (ht : t = word ++ rest) (hword : word.isWord "DISTINCT" = true)
    (hrest : ∀ c ∈ rest.head?, isBlank c = true) (hne : Text.trim rest ≠ []) :
    SelectText s t true (Text.trim rest)

theorem selectText_of_readDistinct {param : Nat} {distinct : Bool} {g : Segment}
    (ht : s.Keyless t) (h : readDistinct s ⟨Text.trim t, param⟩ = .ok (distinct, g)) :
    SelectText s (Text.trim t) distinct g.text ∧ g.firstParam = param ∧ s.Keyless g.text := by
  have htrim := ht.trim
  obtain ⟨lead, cs, he, hlead, hcs⟩ := htrim.balanced.exists_cells
  have hwords : s.topWords (Text.trim t) = cs.map (·.word) := by
    rw [he, Scanner.topWords_blanks hlead, hcs.topWords]
  rw [he] at h
  cases cs with
  | nil =>
    rw [readDistinct, hcs.wordSpans hlead] at h
    cases h
    rw [← he]
    exact ⟨.all (by rw [hwords]; exact nofun), rfl, htrim⟩
  | cons k cs =>
    rw [readDistinct_cells hlead hcs] at h
    split at h
    · rename_i hk
      split at h
      · cases h
      · rename_i hne
        cases h
        -- a trimmed text has no blanks before its first word
        have hnone : lead = [] := by
          cases lead with
          | nil => rfl
          | cons c lead =>
            have hc := hlead c List.mem_cons_self
            rw [Text.isBlank_of_trim he] at hc
            cases hc
        rw [hnone, List.nil_append, Cell.texts_word] at he
        have hkeyless := noKeyword_cons.1 (hwords ▸ htrim.noKeyword)
        obtain _ | ⟨-, hgap, hlast, hcs⟩ := hcs
        refine ⟨.distinct he hk (fun c hc => ?_) hne, rfl, (hcs.keyless hgap hkeyless.2.2).trim⟩
        cases hg : k.gap with
        | nil =>
          rw [hg, hlast hg] at hc
          cases hc
        | cons d gap =>
          rw [hg] at hc hgap
          exact Option.some.inj hc ▸ hgap d List.mem_cons_self
    · rename_i hk
      cases h
      rw [← he]
      refine ⟨.all fun w hw => ?_, rfl, htrim⟩
      rw [hwords] at hw
      cases hw
      exact Bool.eq_false_of_not_eq_true hk

/-- A count is a text of digits, and the number that it stands for is not too large. -/
theorem readCount_eq_ok {n : Nat} (h : readCount c t = .ok n) :
    t.all Char.isDigit = true ∧ t.digitsValue < countBound ∧ n = t.digitsValue := by
  rw [readCount, Text.unsigned?] at h
  by_cases hc : (!t.isEmpty && t.all Char.isDigit && decide (t.digitsValue < countBound)) = true
  · rw [if_pos hc] at h
    cases h
    simp only [Bool.and_eq_true, decide_eq_true_eq] at hc
    exact ⟨hc.1.2, hc.2, rfl⟩
  · rw [if_neg hc] at h
    cases h

/-! ## The whole query -/

/-- What the query holds of a clause whose trimmed content is the segment. -/
def Query.HoldsClause (s : Scanner) (q : Query) (g : Segment) : Clause → Prop
  | .select => ∃ select, q.select = some select ∧ select.firstParam = g.firstParam ∧
      s.Keyless select.text ∧ SelectText s g.text q.distinct select.text
  | .from => FromList.read s g = .ok q.source
  | .where => q.filter = some g
  | .groupBy => q.groupBy = some g
  | .having => q.having = some g
  | .orderBy => q.orderBy = some g
  | .limit => g.text.all Char.isDigit = true ∧ g.text.digitsValue < 2 ^ 64 ∧
      q.limit = some g.text.digitsValue
  | .offset => g.text.all Char.isDigit = true ∧ g.text.digitsValue < 2 ^ 64 ∧
      q.offset = some g.text.digitsValue
  | .query | .join | .indexBy => False

/-- The query holds nothing of a clause. -/
def Query.LacksClause (q : Query) : Clause → Prop
  | .select => q.distinct = false ∧ q.select = none
  | .from => False
  | .where => q.filter = none
  | .groupBy => q.groupBy = none
  | .having => q.having = none
  | .orderBy => q.orderBy = none
  | .limit => q.limit = none
  | .offset => q.offset = none
  | .query | .join | .indexBy => True

section
variable {q : Query} {lead : Text} {cs : List Cell} {wcs : List WrittenClause}

/-- Reads a text of clauses. -/
theorem Query.parse_cells (hlead : Scanner.Blank lead) (hcs : s.Cells cs) (h : Grouped wcs cs)
    (hne : cs ≠ []) : Query.parse s (lead ++ Cell.texts cs) =
      Draft.readAll s (lead ++ Cell.texts cs) [] {} (WrittenClause.marks lead.length wcs) >>= fun d =>
        match d.source with
        | none => malformed .from .noSource
        | some source => .ok
          { d.toClauseTexts with source, placeholders := s.count (lead ++ Cell.texts cs) } := by
  obtain ⟨c, rest, rfl⟩ := h.exists_cons hne
  obtain ⟨k, cs, rfl⟩ := List.exists_cons_of_ne_nil hne
  have hmarks : clauseMarks (lead ++ Cell.texts (k :: cs)) (Cell.spans lead.length (k :: cs)) =
      WrittenClause.marks lead.length (c :: rest) := h.marks_eq List.drop_left
  have hb : s.Balanced (lead ++ Cell.texts (k :: cs)) :=
    (Scanner.balanced_blanks hlead).append hcs.balanced
  have hplaceholders := Scanner.placeholders_eq_ok.2 ⟨hb, rfl⟩
  rw [Cell.spans] at hmarks
  rw [Query.parse, hcs.wordSpans hlead, hplaceholders]
  simp only [Except.inClause, Except.mapError, bind, Except.bind, Cell.spans, hmarks,
    WrittenClause.marks, List.head?_cons, Option.map_some]
  rw [if_neg (by simp)]
  cases Draft.readAll s _ [] {} _ with
  | error e => rfl
  | ok d => cases d.source <;> rfl

/-- A text that is read is blanks and then clauses. -/
theorem Query.exists_grouped (h : Query.parse s t = .ok q) : ∃ lead cs wcs,
    t = lead ++ Cell.texts cs ∧ Scanner.Blank lead ∧ s.Cells cs ∧ Grouped wcs cs ∧ cs ≠ [] := by
  obtain ⟨ws, hws, h⟩ := Except.bind_eq_ok.1 h
  have hws := Except.inClause_eq_ok.1 hws
  obtain ⟨lead, cs, rfl, hlead, hcs⟩ := (Scanner.wordSpans_between hws).1.exists_cells
  rw [hcs.wordSpans hlead] at hws
  cases hws
  obtain ⟨es, ds, wcs, rfl, hes, hds⟩ := ObjectQuery.exists_grouped cs
  have hmarks : clauseMarks (lead ++ Cell.texts (es ++ ds)) (Cell.spans lead.length (es ++ ds)) =
      WrittenClause.marks (lead.length + (Cell.texts es).length) wcs := by
    rw [clauseMarks_content hes hds.head List.drop_left, hds.marks_eq]
    rw [Cell.texts_append, ← List.append_assoc, ← List.length_append, List.drop_left]
  cases hspans : Cell.spans lead.length (es ++ ds) with
  | nil =>
    rw [hspans] at h
    cases h
  | cons first rest =>
    rw [hspans] at h hmarks
    simp only [hmarks] at h
    split at h
    · cases h
    · rename_i hhead
      have hfirst : first.start = lead.length := by
        obtain ⟨k, cs, hk⟩ := List.exists_cons_of_ne_nil (l := es ++ ds) fun hnone => by
          rw [hnone] at hspans
          cases hspans
        rw [hk] at hspans
        cases hspans
        rfl
      -- the first keyword stands where the first word does
      have hnone : es = [] := by
        cases wcs with
        | nil => simp [WrittenClause.marks] at hhead
        | cons c wcs =>
          have hlen : (Cell.texts es).length = 0 := by
            simpa [WrittenClause.marks, hfirst] using hhead
          cases es with
          | nil => rfl
          | cons e es =>
            obtain ⟨c, t, he, -⟩ := hcs.of_append_left.exists_cons
            rw [he] at hlen
            cases hlen
      rw [hnone, List.nil_append] at hcs hspans
      refine ⟨lead, ds, wcs, by rw [hnone]; rfl, hlead, hcs, hds, ?_⟩
      rintro rfl
      cases hspans

/-- What lies between the clauses of a text: their keywords. -/
theorem between_marks (hlead : Scanner.Blank lead) (hcs : s.Cells cs) (h : Grouped wcs cs) :
    ∃ lo, s.Between Tame (lead ++ Cell.texts cs) lo
      (contents (lead ++ Cell.texts cs).length (WrittenClause.marks lead.length wcs))
      (lead ++ Cell.texts cs).length := by
  obtain ⟨-, hbetween⟩ := Scanner.wordSpans_between (hcs.wordSpans hlead)
  have hmarks := clauseMarks_between .zero hbetween
  rw [h.marks_eq List.drop_left] at hmarks
  exact ⟨_, hmarks.2.2⟩

/-- The segments of the clauses of a whole text. -/
theorem sections_cells (hlead : Scanner.Blank lead) (hcs : s.Cells cs) (h : Grouped wcs cs) :
    sections s (lead ++ Cell.texts cs) (WrittenClause.marks lead.length wcs) =
      WrittenClause.sections s 0 wcs := by
  rw [sections_marks (Scanner.balanced_blanks hlead) (h.proper hcs) (by rw [h.texts_eq]),
    Scanner.count_blanks hlead]

theorem WrittenClause.sections_clauses (param : Nat) :
    (WrittenClause.sections s param wcs).map (·.1) = wcs.map (·.clause) := by
  induction wcs generalizing param with
  | nil => rfl
  | cons c wcs ih => exact congrArg _ (ih _)

theorem WrittenClause.marks_clauses (pos : Nat) :
    (WrittenClause.marks pos wcs).map (·.clause) = wcs.map (·.clause) := by
  induction wcs generalizing pos with
  | nil => rfl
  | cons c wcs ih => exact congrArg _ (ih _)

/-- The section of each clause, with the placeholders before it. -/
theorem WrittenClause.mem_sections {pre post : List WrittenClause} {c : WrittenClause}
    (h : ∀ c ∈ pre, c.Proper s) (param : Nat) :
    (c.clause, ⟨Text.trim c.content, param + s.count (WrittenClause.texts pre)⟩) ∈
      WrittenClause.sections s param (pre ++ c :: post) := by
  induction pre generalizing param with
  | nil => exact List.mem_cons_self
  | cons d pre ih =>
    obtain ⟨hd, hpre⟩ := List.forall_mem_cons.1 h
    have hkeyword : s.Neutral d.keyword := hd.spelled.tame.neutral
    have hcount : s.count (WrittenClause.texts (d :: pre)) =
        s.count d.content + s.count (WrittenClause.texts pre) := by
      rw [WrittenClause.texts_cons, Scanner.count_append hkeyword.1.run, hkeyword.2, Nat.zero_add,
        Scanner.count_append hd.keyless.balanced.run]
    rw [hcount, ← Nat.add_assoc]
    exact List.mem_cons_of_mem _ (ih hpre _)

theorem WrittenClause.exists_of_mem_sections {x : Clause × Segment} {param : Nat}
    (h : x ∈ WrittenClause.sections s param wcs) :
    ∃ c ∈ wcs, x.1 = c.clause ∧ x.2.text = Text.trim c.content := by
  induction wcs generalizing param with
  | nil => cases h
  | cons c wcs ih =>
    rcases List.mem_cons.1 h with rfl | h
    · exact ⟨c, List.mem_cons_self, rfl, rfl⟩
    · obtain ⟨d, hd, hx⟩ := ih h
      exact ⟨d, List.mem_cons_of_mem _ hd, hx⟩

/-- A clause that a draft has read is held by the query. -/
theorem WrittenClause.Proper.holds {c : WrittenClause} {d₀ d₁ d : Draft} {g : Segment} {n : Nat}
    {source : FromList} (hc : c.Proper s) (hg : g.text = Text.trim c.content)
    (hread : d₀.read s c.clause g = .ok d₁) (hsame : d₁.Same d c.clause)
    (hsource : d.source = some source) :
    Query.HoldsClause s { d.toClauseTexts with source, placeholders := n } g c.clause := by
  obtain ⟨clause, keyword, content⟩ := c
  obtain ⟨text, param⟩ := g
  obtain rfl : text = Text.trim content := hg
  cases clause with
  | select =>
    obtain ⟨⟨distinct, select⟩, hdistinct, hread⟩ := Except.bind_eq_ok.1 hread
    cases hread
    obtain ⟨htext, hparam, hkeyless⟩ := selectText_of_readDistinct hc.keyless hdistinct
    obtain ⟨hd, hs⟩ := hsame
    exact ⟨select, hs, hparam, hkeyless, hd ▸ htext⟩
  | «from» =>
    obtain ⟨f, hf, hread⟩ := Except.bind_eq_ok.1 hread
    cases hread
    cases hsource.symm.trans hsame
    exact hf
  | «where» | groupBy | having | orderBy =>
    cases hread
    exact hsame
  | limit | offset =>
    obtain ⟨k, hk, hread⟩ := Except.bind_eq_ok.1 hread
    cases hread
    obtain ⟨hdigits, hbound, rfl⟩ := readCount_eq_ok hk
    exact ⟨hdigits, hbound, hsame⟩
  | query | join | indexBy =>
    cases hc.spelled with
    | word h => cases h.2
    | words h => cases h.2

/-- Reading a text of clauses, no two of them alike, reads their sections. -/
theorem Query.parse_sections (hlead : Scanner.Blank lead) (hcs : s.Cells cs) (h : Grouped wcs cs)
    (hne : cs ≠ []) (hnodup : (wcs.map (·.clause)).Nodup)
    (htext : ∀ c ∈ wcs, Text.trim c.content ≠ []) : Query.parse s (lead ++ Cell.texts cs) =
      Draft.readSections s {} (WrittenClause.sections s 0 wcs) >>= fun d =>
        match d.source with
        | none => malformed .from .noSource
        | some source => .ok
          { d.toClauseTexts with source, placeholders := s.count (lead ++ Cell.texts cs) } := by
  obtain ⟨lo, hbetween⟩ := between_marks hlead hcs h
  have hsections := sections_cells hlead hcs h
  rw [Query.parse_cells hlead hcs h hne, Draft.readAll_eq hbetween
    (fun _ _ => List.not_mem_nil) (by rwa [WrittenClause.marks_clauses]), hsections]
  intro x hx
  rw [hsections] at hx
  obtain ⟨c, hc, -, he⟩ := WrittenClause.exists_of_mem_sections hx
  exact he ▸ htext c hc

/-- A query that was read from a text of clauses holds these and no others. -/
theorem Query.parse_cells_ok (hlead : Scanner.Blank lead) (hcs : s.Cells cs) (h : Grouped wcs cs)
    (hne : cs ≠ []) (hq : Query.parse s (lead ++ Cell.texts cs) = .ok q) :
    (wcs.map (·.clause)).Nodup ∧ (∀ c ∈ wcs, Text.trim c.content ≠ []) ∧
      (∀ x ∈ WrittenClause.sections s 0 wcs, q.HoldsClause s x.2 x.1) ∧
      (∀ c, c ∉ wcs.map (·.clause) → q.LacksClause c) ∧
      q.placeholders = s.count (lead ++ Cell.texts cs) := by
  have hproper := h.proper hcs
  have hdraft := hq
  rw [Query.parse_cells hlead hcs h hne] at hdraft
  obtain ⟨d, hread, -⟩ := Except.bind_eq_ok.1 hdraft
  obtain ⟨lo, hbetween⟩ := between_marks hlead hcs h
  have hsections := sections_cells hlead hcs h
  have hne' := Draft.sections_ne_nil hbetween hread
  rw [hsections] at hne'
  have hnodup := (Draft.readAll_spec hread).2.1
  rw [WrittenClause.marks_clauses] at hnodup
  have htext : ∀ c ∈ wcs, Text.trim c.content ≠ [] := by
    intro c hc
    obtain ⟨pre, post, rfl⟩ := List.append_of_mem hc
    have hpre : ∀ d ∈ pre, d.Proper s := fun d hd => hproper d (List.mem_append_left _ hd)
    exact hne' _ (WrittenClause.mem_sections hpre 0)
  rw [Query.parse_sections hlead hcs h hne hnodup htext] at hq
  obtain ⟨d, hread, hq⟩ := Except.bind_eq_ok.1 hq
  obtain ⟨hheld, hother⟩ := Draft.readSections_spec hread (by rwa [WrittenClause.sections_clauses])
  rw [WrittenClause.sections_clauses] at hother
  cases hsource : d.source with
  | none =>
    rw [hsource] at hq
    cases hq
  | some source =>
    rw [hsource] at hq
    cases hq
    refine ⟨hnodup, htext, fun x hx => ?_, fun c hc => ?_, rfl⟩
    · obtain ⟨d₀, d₁, hread, hsame⟩ := hheld x hx
      obtain ⟨c, hc, hx, hg⟩ := WrittenClause.exists_of_mem_sections hx
      rw [hx] at hread hsame ⊢
      exact (hproper c hc).holds hg hread hsame hsource
    · have hsame := hother c hc
      cases c with
      | «from» => cases hsource.symm.trans hsame
      | select | «where» | groupBy | having | orderBy | limit | offset => exact hsame
      | query | join | indexBy => trivial

end

/-- A text that is read is blanks and then clauses, each a keyword and what comes up to the next
keyword. No clause is repeated or empty, and no other word is a keyword. The words of the text are
those of its clauses. The query holds each clause as it is written, after as many placeholders as
there are before it, and nothing else. -/
theorem Query.parse_written {q : Query} (h : Query.parse s t = .ok q) :
    ∃ lead cs, t = lead ++ WrittenClause.texts cs ∧ Scanner.Blank lead ∧
      (∀ c ∈ cs, c.clause.Spelled c.keyword ∧ s.Keyless c.content ∧
        s.Keyless (Text.trim c.content) ∧ Text.trim c.content ≠ []) ∧
      (cs.map (·.clause)).Nodup ∧
      s.words t = .ok (cs.flatMap fun c => s.topWords c.keyword ++ s.topWords c.content) ∧
      (∀ pre c post, cs = pre ++ c :: post → q.HoldsClause s
        ⟨Text.trim c.content, s.count (lead ++ WrittenClause.texts pre ++ c.keyword)⟩ c.clause) ∧
      (∀ c, c ∉ cs.map (·.clause) → q.LacksClause c) ∧ q.placeholders = s.count t := by
  obtain ⟨lead, cells, cs, rfl, hlead, hcells, hcs, hne⟩ := Query.exists_grouped h
  have hb : s.Balanced lead := Scanner.balanced_blanks hlead
  have hproper := hcs.proper hcells
  obtain ⟨hnodup, htext, hholds, hlacks, hcount⟩ := Query.parse_cells_ok hlead hcells hcs hne h
  refine ⟨lead, cs, by rw [hcs.texts_eq], hlead, fun c hc => ?_, hnodup, ?_, ?_, hlacks, hcount⟩
  · have hkeyless := (hproper c hc).keyless
    exact ⟨(hproper c hc).spelled, hkeyless, hkeyless.trim, htext c hc⟩
  · rw [Scanner.words_eq_topWords (hb.append hcells.balanced), Scanner.topWords_blanks hlead,
      hcells.topWords, hcs.words_eq hcells]
  · rintro pre c post rfl
    have hpre : ∀ d ∈ pre, d.Proper s := fun d hd => hproper d (List.mem_append_left _ hd)
    have hkeyword : s.Neutral c.keyword := (hproper c (by simp)).spelled.tame.neutral
    have hparam : s.count (lead ++ WrittenClause.texts pre ++ c.keyword) =
        0 + s.count (WrittenClause.texts pre) := by
      rw [Scanner.count_append (hb.append (WrittenClause.balanced_texts hpre)).run, hkeyword.2,
        Scanner.count_append hb.run, Scanner.count_blanks hlead, Nat.add_zero]
    rw [hparam]
    exact hholds _ (WrittenClause.mem_sections hpre 0)

theorem Query.parse_written_grouped :
    let t := (" select Distinct u.name from User u where u.name = 'a FROM (' AND (u.id IN (1, ?))" ++
      "GROUP  by u.id having COUNT(u.id) > ? limit 10").toList
    ∃ q, Query.parse {} t = .ok q ∧ q.distinct = true ∧
      q.having = some ⟨"COUNT(u.id) > ?".toList, 1⟩ ∧ q.limit = some 10 ∧
      ∃ lead cs, t = lead ++ WrittenClause.texts cs ∧ Scanner.Blank lead ∧
        (cs.map (·.clause)).Nodup ∧ ∀ c ∈ cs, c.clause.Spelled c.keyword ∧ Scanner.Keyless {} c.content := by
  intro t
  obtain ⟨q, hq, hdistinct, hhaving, hlimit⟩ : ∃ q, Query.parse {} t = .ok q ∧ q.distinct = true ∧
      q.having = some ⟨"COUNT(u.id) > ?".toList, 1⟩ ∧ q.limit = some 10 := by decide +kernel
  obtain ⟨lead, cs, ht, hlead, hcs, hnodup, -⟩ := Query.parse_written hq
  exact ⟨q, hq, hdistinct, hhaving, hlimit, lead, cs, ht, hlead, hnodup,
    fun c hc => ⟨(hcs c hc).1, (hcs c hc).2.1⟩⟩

end ObjectQuery
