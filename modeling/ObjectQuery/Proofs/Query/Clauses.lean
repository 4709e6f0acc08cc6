import ObjectQuery.Proofs.Query.Sources
import ObjectQuery.Query.Parser

/-! # Where the clauses of a query stand

Reading a query keeps all of its text but keywords, names and numbers: every clause is a part of
the text with the right ordinal, and the placeholders of the clauses, taken in the order in which
SQL writes them, are those of the text in some order. When the clauses are written in that order,
it is the order of the text.

* `Scanner.clauseOrder`, `Scanner.ClausesInOrder`: the order of the clauses of a text;
* `Query.Read`, `Query.parse_spec`: what is known of a query that was read. -/

namespace ObjectQuery

variable {s : Scanner} {t : Text} {ws : List Span} {ms : List ClauseMark} {lo mid hi : Nat}

/-! ## The stretches between keywords -/

/-- Where the first of some clauses starts; the end of a text of the given size when there is
none. -/
def firstKeyword (size : Nat) (ms : List ClauseMark) : Nat :=
  (ms.head?.map (·.keywordStart)).getD size

/-- The stretches of text that follow the keywords of clauses. -/
def contents (size : Nat) : List ClauseMark → List Span
  | [] => []
  | m :: ms => ⟨m.contentStart, firstKeyword size ms⟩ :: contents size ms

theorem clauseWord?_tame {word : Text} {c : Clause} (h : clauseWord? word = some c) :
    Tame word := by
  simp only [clauseWord?] at h
  repeat'
    split at h
    · rename_i hw
      exact Text.tame_of_isWord hw (by decide)
  cases h

theorem clauseWords?_tame {word next : Text} {c : Clause} (h : clauseWords? word next = some c) :
    Tame word ∧ Tame next := by
  simp only [clauseWords?, Bool.not_eq_true'] at h
  split at h
  · cases h
  · rename_i hn
    have hn : Tame next := Text.tame_of_isWord (Bool.not_eq_false _ ▸ hn) (by decide)
    repeat'
      split at h
      · rename_i hw
        exact ⟨Text.tame_of_isWord hw (by decide), hn⟩
    cases h

theorem slice_append (h1 : lo ≤ mid) (h2 : mid ≤ hi) :
    (Span.mk lo hi).slice t = (Span.mk lo mid).slice t ++ (Span.mk mid hi).slice t := by
  refine List.append_cancel_left (?_ : t.take lo ++ _ = _)
  rw [Scanner.take_append_slice (Nat.le_trans h1 h2), ← List.append_assoc,
    Scanner.take_append_slice h1, Scanner.take_append_slice h2]

theorem Scanner.Blank.tame {u : Text} (h : Scanner.Blank u) : Tame u := tame_of_isBlank h

/-- Between the contents of clauses there are keywords only. -/
theorem clauseMarks_between (hlo : s.Cut t lo) (h : s.Between Scanner.Blank t lo ws t.length) :
    lo ≤ firstKeyword t.length (clauseMarks t ws) ∧
      s.Cut t (firstKeyword t.length (clauseMarks t ws)) ∧
      s.Between Tame t (firstKeyword t.length (clauseMarks t ws))
        (contents t.length (clauseMarks t ws)) t.length := by
  have hend (hlen : s.Cut t t.length) : s.Between Tame t t.length [] t.length :=
    ⟨Nat.le_refl _, Nat.le_refl _, by rw [Scanner.slice_self]; exact .nil⟩
  have hlen : s.Cut t t.length := (h.ordinals (fun _ => Scanner.Blank.neutral) hlo).1
  fun_induction clauseMarks t ws generalizing lo with
  | case1 => exact ⟨h.le, hlen, hend hlen⟩
  | case2 w c hc =>
    obtain ⟨⟨h1, -⟩, h2, h3, h4, h5⟩ := h
    exact ⟨h1, h3, ⟨h2, clauseWord?_tame hc⟩, h5.le, h4, hlen, hend hlen⟩
  | case3 w hc => exact ⟨h.le, hlen, hend hlen⟩
  | case4 w next rest c hc ih =>
    obtain ⟨⟨h1, -⟩, h2, h3, h4, h5⟩ := h
    obtain ⟨h6, h7, h8⟩ := ih h4 h5
    exact ⟨h1, h3, ⟨h2, clauseWord?_tame hc⟩, h6, h4, h7, h8⟩
  | case5 w next rest hw c hc ih =>
    obtain ⟨⟨h1, -⟩, h2, h3, h4, ⟨h5, hgap⟩, h6, h7, h8, h9⟩ := h
    obtain ⟨h10, h11, h12⟩ := ih h8 h9
    obtain ⟨hword, hnext⟩ := clauseWords?_tame hc
    refine ⟨h1, h3, ⟨Nat.le_trans h2 (Nat.le_trans h5 h6), ?_⟩, h10, h8, h11, h12⟩
    show Tame ((Span.mk w.start next.stop).slice t)
    rw [slice_append h2 (Nat.le_trans h5 h6), slice_append h5 h6]
    exact hword.append (hgap.tame.append hnext)
  | case6 w next rest hw hc ih =>
    obtain ⟨⟨h1, -⟩, h2, h3, h4, h5⟩ := h
    obtain ⟨h6, h7, h8⟩ := ih h4 h5
    exact ⟨Nat.le_trans h1 (Nat.le_trans h2 h6), h7, h8⟩

/-- The clauses with their segments. -/
def sections (s : Scanner) (t : Text) : List ClauseMark → List (Clause × Segment)
  | [] => []
  | m :: ms =>
    let span := (Span.mk m.contentStart (firstKeyword t.length ms)).trimmed t
    (m.clause, ⟨span.slice t, s.before t span.start⟩) :: sections s t ms

theorem sections_clauses (ms : List ClauseMark) :
    (sections s t ms).map (·.1) = ms.map (·.clause) := by
  induction ms with
  | nil => rfl
  | cons m ms ih => exact congrArg _ ih

theorem sections_spec (h : s.Between Tame t lo (contents t.length ms) hi) :
    (∀ x ∈ sections s t ms, x.2.Lies s 0 t) ∧
      (sections s t ms).flatMap (·.2.ordinals s) =
        (contents t.length ms).flatMap (s.ordinals t) := by
  induction ms generalizing lo with
  | nil => exact ⟨nofun, rfl⟩
  | cons m ms ih =>
    obtain ⟨-, h2, h3, h4, h5⟩ := h
    obtain ⟨ih1, ih2⟩ := ih h5
    obtain ⟨hle, hstart, hstop, -⟩ := h3.trimmed h4 h2
    refine ⟨fun x hx => ?_, ?_⟩
    · rcases List.mem_cons.1 hx with rfl | hx
      · exact ⟨_, _, hstart.stands hstop hle, (Nat.zero_add _).symm⟩
      · exact ih1 x hx
    · rw [contents, List.flatMap_cons, ← ih2, ← h3.ordinals_trimmed h4 h2]
      rfl

/-- When the first word of a text starts a clause, the clauses lie in the text and hold all of its
placeholders in order. -/
theorem sections_cover {first : Span} {rest : List Span}
    (h : s.Between Scanner.Blank t 0 (first :: rest) t.length)
    (hhead : (clauseMarks t (first :: rest)).head?.map (·.keywordStart) = some first.start) :
    (∀ x ∈ sections s t (clauseMarks t (first :: rest)), x.2.Lies s 0 t) ∧
      (sections s t (clauseMarks t (first :: rest))).flatMap (·.2.ordinals s) =
        List.range (s.count t) := by
  obtain ⟨-, hcut, hcontents⟩ := clauseMarks_between .zero h
  obtain ⟨⟨h1, hgap⟩, -⟩ := h
  have hfirst : firstKeyword t.length (clauseMarks t (first :: rest)) = first.start := by
    rw [firstKeyword, hhead]; rfl
  rw [hfirst] at hcut hcontents
  have hzero : s.before t first.start = 0 := by
    rw [Scanner.Cut.zero.before_add h1, Scanner.before_zero, hgap.neutral.2]
  have hcount := hcut.before_add hcut.le_length
  rw [hzero, Nat.zero_add, Scanner.before_length] at hcount
  obtain ⟨-, hcover⟩ := hcontents.ordinals (fun _ => Tame.neutral) hcut
  obtain ⟨hlies, hsections⟩ := sections_spec hcontents
  refine ⟨hlies, ?_⟩
  rw [hsections, hcover, Scanner.ordinals, hzero, List.range_eq_range', hcount]

/-! ## The clauses one after the other -/

theorem readDistinct_spec {g g' : Segment} {distinct : Bool}
    (h : readDistinct s g = .ok (distinct, g')) :
    g'.Lies s g.firstParam g.text ∧ g'.ordinals s = g.ordinals s := by
  obtain ⟨ws, hws, h⟩ := Except.bind_eq_ok.1 h
  obtain ⟨hb, hbetween⟩ := Scanner.wordSpans_between (Except.inClause_eq_ok.1 hws)
  have hself : g.Lies s g.firstParam g.text := ⟨_, _, .refl hb, rfl⟩
  cases ws with
  | nil =>
    cases h
    exact ⟨hself, rfl⟩
  | cons first rest =>
    simp only at h
    split at h
    · rename_i hw
      split at h
      · cases h
      · cases h
        obtain ⟨⟨h1, hgap⟩, h2, h3, h4, -⟩ := hbetween
        have htake : Tame (g.text.take first.stop) := by
          rw [← Scanner.take_append_slice h2, ← Scanner.take_append_slice h1]
          exact (Tame.nil.append hgap.tame).append (Text.tame_of_isWord hw (by decide))
        obtain ⟨hbal, hcount⟩ := htake.neutral (s := s)
        have hsplit := List.take_append_drop first.stop g.text
        have hdrop : s.Balanced (g.text.drop first.stop) := hbal.of_append_left (by rwa [hsplit])
        obtain ⟨⟨pos, hpos⟩, htrim⟩ := hdrop.stands_trim
        have hstands : s.Stands g.text first.stop 0 (g.text.drop first.stop) :=
          ⟨hdrop, _, [], by rw [List.append_nil, hsplit],
            by rw [List.length_take, Nat.min_eq_left h4.le_length], hbal.run, hcount⟩
        refine ⟨⟨_, _, hstands.trans hpos, rfl⟩, ?_⟩
        rw [Segment.ordinals, Segment.ordinals, htrim]
        conv => rhs; rw [← hsplit, Scanner.count_append hbal.run, hcount, Nat.zero_add]
    · cases h
      exact ⟨hself, rfl⟩

namespace Draft

/-- Two drafts agree on a clause. -/
def Agrees (d d' : Draft) : Clause → Prop
  | .select => d'.select = d.select
  | .from => d'.source = d.source
  | .where => d'.filter = d.filter
  | .groupBy => d'.groupBy = d.groupBy
  | .having => d'.having = d.having
  | .orderBy => d'.orderBy = d.orderBy
  | .query | .join | .indexBy | .limit | .offset => True

/-- A draft holds what was read from the segment of a clause. -/
def Has (s : Scanner) (d : Draft) : Clause → Segment → Prop
  | .select, g => ∃ distinct select, readDistinct s g = .ok (distinct, select) ∧
      d.select = some select
  | .from, g => ∃ f, FromList.read s g = .ok f ∧ d.source = some f
  | .where, g => d.filter = some g
  | .groupBy, g => d.groupBy = some g
  | .having, g => d.having = some g
  | .orderBy, g => d.orderBy = some g
  | .limit, g | .offset, g => Tame g.text
  | .query, _ | .join, _ | .indexBy, _ => True

variable {d d' d'' : Draft} {c c' : Clause} {g : Segment}

theorem Agrees.refl (d : Draft) (c : Clause) : Agrees d d c := by cases c <;> trivial

theorem Agrees.trans (h : Agrees d d' c) (h' : Agrees d' d'' c) : Agrees d d'' c := by
  cases c <;> first | trivial | exact Eq.trans h' h

theorem Has.of_agrees (h : d.Has s c g) (ha : Agrees d d' c) : d'.Has s c g := by
  cases c with
  | select =>
    obtain ⟨distinct, select, hr, hs⟩ := h
    exact ⟨distinct, select, hr, Eq.trans ha hs⟩
  | «from» =>
    obtain ⟨f, hf, hs⟩ := h
    exact ⟨f, hf, Eq.trans ha hs⟩
  | «where» | groupBy | having | orderBy => exact Eq.trans ha h
  | limit | offset | query | join | indexBy => exact h

theorem read_spec (h : d.read s c g = .ok d') :
    d'.Has s c g ∧ ∀ c', c' ≠ c → Agrees d d' c' := by
  cases c with
  | select =>
    obtain ⟨⟨distinct, select⟩, hr, h⟩ := Except.bind_eq_ok.1 h
    cases h
    refine ⟨⟨distinct, select, hr, rfl⟩, fun c' hc => ?_⟩
    cases c' <;> trivial
  | «from» =>
    obtain ⟨f, hf, h⟩ := Except.bind_eq_ok.1 h
    cases h
    refine ⟨⟨f, hf, rfl⟩, fun c' hc => ?_⟩
    cases c' <;> trivial
  | limit | offset =>
    obtain ⟨n, hn, h⟩ := Except.bind_eq_ok.1 h
    cases h
    simp only [readCount] at hn
    split at hn
    · rename_i hu
      refine ⟨Text.tame_of_unsigned? hu, fun c' _ => ?_⟩
      cases c' <;> trivial
    · cases hn
  | «where» | groupBy | having | orderBy =>
    cases h
    refine ⟨rfl, fun c' hc => ?_⟩
    cases c' <;> trivial
  | query | join | indexBy =>
    cases h
    exact ⟨trivial, fun c' _ => Agrees.refl _ c'⟩

/-- A draft holds what was read from each of several clauses, no two of them alike. -/
theorem readAll_spec {seen : List Clause} (h : readAll s t seen d ms = .ok d') :
    (∀ m ∈ ms, m.clause ∉ seen) ∧ (ms.map (·.clause)).Nodup ∧
      (∀ x ∈ sections s t ms, d'.Has s x.1 x.2) ∧
      ∀ c, c ∉ ms.map (·.clause) → Agrees d d' c := by
  induction ms generalizing seen d with
  | nil =>
    cases h
    exact ⟨nofun, List.nodup_nil, nofun, fun c _ => Agrees.refl _ c⟩
  | cons m ms ih =>
    simp only [readAll] at h
    split at h
    · cases h
    · rename_i hseen
      split at h
      · cases h
      · obtain ⟨before, hbefore, h⟩ := Except.bind_eq_ok.1 h
        obtain ⟨d1, hread, h⟩ := Except.bind_eq_ok.1 h
        obtain ⟨h1, h2, h3, h4⟩ := ih h
        obtain ⟨h5, h6⟩ := read_spec hread
        rw [← (Scanner.placeholders_eq_ok.1 (Except.inClause_eq_ok.1 hbefore)).2] at h5
        have hm : m.clause ∉ ms.map (·.clause) := by
          rintro hm
          obtain ⟨n, hn, he⟩ := List.mem_map.1 hm
          exact h1 n hn (by rw [he]; exact List.mem_cons_self)
        refine ⟨?_, List.nodup_cons.2 ⟨hm, h2⟩, ?_, fun c hc => ?_⟩
        · intro n hn
          rcases List.mem_cons.1 hn with rfl | hn
          · simpa using hseen
          · exact fun h => h1 n hn (List.mem_cons_of_mem _ h)
        · intro x hx
          rcases List.mem_cons.1 hx with rfl | hx
          · exact h5.of_agrees (h4 _ hm)
          · exact h3 x hx
        · rw [List.map_cons, List.mem_cons, not_or] at hc
          exact (h6 c hc.1).trans (h4 c hc.2)

end Draft

/-! ## The order of the clauses -/

/-- The clauses that hold expressions, in the order in which SQL writes them. -/
def Clause.written : List Clause := [.select, .from, .where, .groupBy, .having, .orderBy]

namespace Scanner

/-- The clauses of a text, in the order of the text. -/
def clauseOrder (s : Scanner) (t : Text) : List Clause :=
  match s.wordSpans t with
  | .ok ws => (clauseMarks t ws).map (·.clause)
  | .error _ => []

/-- The clauses of the text that hold expressions come in the order in which SQL writes them. -/
def ClausesInOrder (s : Scanner) (t : Text) : Prop :=
  ((s.clauseOrder t).filter Clause.written.contains).Sublist Clause.written

instance (s : Scanner) (t : Text) : Decidable (s.ClausesInOrder t) :=
  inferInstanceAs (Decidable (List.Sublist _ _))

end Scanner

section
variable {α β γ : Type} {l l' : List α} {f : α → List β}

/-- Elements that give nothing may be left out. -/
theorem flatMap_eq_of_sublist (h : l.Sublist l') (hn : l'.Nodup)
    (hf : ∀ a ∈ l', a ∉ l → f a = []) : l.flatMap f = l'.flatMap f := by
  induction h with
  | slnil => rfl
  | @cons l₁ l₂ a h ih =>
    obtain ⟨ha, hn⟩ := List.nodup_cons.1 hn
    rw [List.flatMap_cons, hf a List.mem_cons_self fun hm => ha (h.subset hm), List.nil_append]
    exact ih hn fun b hb => hf b (List.mem_cons_of_mem _ hb)
  | @cons_cons l₁ l₂ a h ih =>
    obtain ⟨ha, hn⟩ := List.nodup_cons.1 hn
    rw [List.flatMap_cons, List.flatMap_cons, ih hn fun b hb hm => ?_]
    refine hf b (List.mem_cons_of_mem _ hb) fun hm' => ?_
    rcases List.mem_cons.1 hm' with rfl | hm'
    · exact ha hb
    · exact hm hm'

theorem flatMap_perm_of_subset [BEq α] [LawfulBEq α] (hl : l.Nodup) (h : l ⊆ l') (hn : l'.Nodup)
    (hf : ∀ a ∈ l', a ∉ l → f a = []) : (l.flatMap f).Perm (l'.flatMap f) := by
  have hperm : l.Perm (l'.filter l.contains) := by
    refine (List.perm_ext_iff_of_nodup hl (hn.filter _)).2 fun a => ?_
    rw [List.mem_filter, List.contains_iff_mem]
    exact ⟨fun ha => ⟨h ha, ha⟩, And.right⟩
  refine (hperm.flatMap_right f).trans (.of_eq ?_)
  refine flatMap_eq_of_sublist List.filter_sublist hn fun a ha hm => hf a ha fun hal => hm ?_
  exact List.mem_filter.2 ⟨ha, List.contains_iff_mem.2 hal⟩

/-- What the second components give, when the first components determine it. -/
theorem flatMap_snd_eq {p : α → Bool} {g : γ → List β} {xs : List (α × γ)}
    (hp : ∀ x ∈ xs, p x.1 = true → f x.1 = g x.2) (hn : ∀ x ∈ xs, p x.1 = false → g x.2 = []) :
    xs.flatMap (g ·.2) = ((xs.map (·.1)).filter p).flatMap f := by
  induction xs with
  | nil => rfl
  | cons x xs ih =>
    rw [List.flatMap_cons, ih (fun y hy => hp y (List.mem_cons_of_mem _ hy))
      fun y hy => hn y (List.mem_cons_of_mem _ hy), List.map_cons]
    cases hx : p x.1 with
    | true => rw [List.filter_cons_of_pos hx, List.flatMap_cons, hp x List.mem_cons_self hx]
    | false =>
      rw [List.filter_cons_of_neg (by rw [hx]; exact Bool.false_ne_true),
        hn x List.mem_cons_self hx, List.nil_append]

end

theorem clauseWord?_mem {word : Text} {c : Clause} (h : clauseWord? word = some c) :
    c ∈ Clause.written ∨ c = .limit ∨ c = .offset := by
  simp only [clauseWord?] at h
  repeat'
    split at h
    · cases h; decide
  cases h

theorem clauseWords?_mem {word next : Text} {c : Clause} (h : clauseWords? word next = some c) :
    c ∈ Clause.written := by
  simp only [clauseWords?] at h
  split at h
  · cases h
  · repeat'
      split at h
      · cases h; decide
    cases h

/-- A clause of a text holds expressions or a number. -/
theorem mem_clauseMarks {m : ClauseMark} (h : m ∈ clauseMarks t ws) :
    m.clause ∈ Clause.written ∨ m.clause = .limit ∨ m.clause = .offset := by
  fun_induction clauseMarks t ws with
  | case1 | case3 => cases h
  | case2 w c hc =>
    rw [List.mem_singleton.1 h]
    exact clauseWord?_mem hc
  | case4 w next rest c hc ih =>
    rcases List.mem_cons.1 h with rfl | h
    · exact clauseWord?_mem hc
    · exact ih h
  | case5 w next rest hw c hc ih =>
    rcases List.mem_cons.1 h with rfl | h
    · exact .inl (clauseWords?_mem hc)
    · exact ih h
  | case6 w next rest hw hc ih => exact ih h

/-! ## The whole query -/

/-- The ordinals of the placeholders in a clause. -/
def Query.clauseOrdinals (s : Scanner) (q : Query) : Clause → List Nat
  | .select => q.select.toList.flatMap (·.ordinals s)
  | .from => q.source.ordinals s
  | .where => q.filter.toList.flatMap (·.ordinals s)
  | .groupBy => q.groupBy.toList.flatMap (·.ordinals s)
  | .having => q.having.toList.flatMap (·.ordinals s)
  | .orderBy => q.orderBy.toList.flatMap (·.ordinals s)
  | .query | .join | .indexBy | .limit | .offset => []

/-- The ordinals of the placeholders in all clauses, in the order in which SQL writes them. -/
def Query.ordinals (s : Scanner) (q : Query) : List Nat :=
  Clause.written.flatMap (q.clauseOrdinals s)

/-- All sources have tame `INDEXBY` columns. -/
def FromList.TameIndexes (f : FromList) : Prop :=
  f.root.TameIndex ∧ ∀ j ∈ f.joins, j.source.TameIndex

/-- What is known of a query that was read from a text. -/
structure Query.Read (s : Scanner) (t : Text) (q : Query) : Prop where
  balanced : s.Balanced t
  placeholders : q.placeholders = s.count t
  select : ∀ g ∈ q.select, g.Lies s 0 t
  source : ∃ g, g.Lies s 0 t ∧ q.source.Read s g
  filter : ∀ g ∈ q.filter, g.Lies s 0 t
  groupBy : ∀ g ∈ q.groupBy, g.Lies s 0 t
  having : ∀ g ∈ q.having, g.Lies s 0 t
  orderBy : ∀ g ∈ q.orderBy, g.Lies s 0 t
  perm : q.source.TameIndexes → (q.ordinals s).Perm (List.range (s.count t))
  inOrder : q.source.TameIndexes → s.ClausesInOrder t → q.ordinals s = List.range (s.count t)

/-- The ordinals of the placeholders in a clause of a draft. -/
def Draft.clauseOrdinals (s : Scanner) (d : Draft) (source : FromList) : Clause → List Nat :=
  Query.clauseOrdinals s { d.toClauseTexts with source := source, placeholders := 0 }

section
variable {d : Draft} {c : Clause} {g : Segment} {source : FromList}

theorem Draft.Has.ordinals (h : d.Has s c g) (hs : d.source = some source)
    (ht : source.TameIndexes) : d.clauseOrdinals s source c = g.ordinals s ∨ c ∉ Clause.written := by
  cases c with
  | select =>
    obtain ⟨_, select, hr, hs⟩ := h
    refine .inl (Eq.trans ?_ (readDistinct_spec hr).2)
    simp [Draft.clauseOrdinals, Query.clauseOrdinals, hs]
  | «from» =>
    obtain ⟨f, hf, hs'⟩ := h
    cases hs.symm.trans hs'
    exact .inl ((FromList.read_spec hf).ordinals ht.1 ht.2)
  | «where» | groupBy | having | orderBy =>
    have h := show _ = some g from h
    refine .inl ?_
    simp [Draft.clauseOrdinals, Query.clauseOrdinals, h]
  | limit | offset | query | join | indexBy => exact .inr (by decide)

theorem Draft.clauseOrdinals_of_agrees (h : Agrees {} d c) (hs : d.source = some source) :
    d.clauseOrdinals s source c = [] := by
  cases c with
  | «from» => cases hs.symm.trans h
  | select | «where» | groupBy | having | orderBy =>
    simp only [Draft.clauseOrdinals, Query.clauseOrdinals]
    rw [show _ = none from h]; rfl
  | limit | offset | query | join | indexBy => rfl

end

/-- The draft was read from the clauses with the given keywords. -/
structure Draft.ReadFrom (s : Scanner) (t : Text) (ms : List ClauseMark) (d : Draft) : Prop where
  nodup : (ms.map (·.clause)).Nodup
  has : ∀ x ∈ sections s t ms, d.Has s x.1 x.2
  agrees : ∀ c, c ∉ ms.map (·.clause) → Draft.Agrees {} d c

namespace Draft.ReadFrom

variable {d : Draft} {source : FromList}

theorem of_readAll (h : Draft.readAll s t [] {} ms = .ok d) : d.ReadFrom s t ms := by
  obtain ⟨-, hnodup, hhas, hagrees⟩ := Draft.readAll_spec h
  exact ⟨hnodup, hhas, hagrees⟩

theorem clause (h : d.ReadFrom s t ms) (c : Clause) :
    (∃ g, (c, g) ∈ sections s t ms) ∨ Draft.Agrees {} d c := by
  by_cases hc : c ∈ ms.map (·.clause)
  · rw [← sections_clauses (s := s) (t := t), List.mem_map] at hc
    obtain ⟨⟨c, g⟩, hg, rfl⟩ := hc
    exact .inl ⟨g, hg⟩
  · exact .inr (h.agrees c hc)

/-- The segment that a draft keeps of a clause lies in the text. -/
theorem lies (h : d.ReadFrom s t ms) (hlies : ∀ x ∈ sections s t ms, x.2.Lies s 0 t) {c : Clause}
    {x : Option Segment} (hsome : ∀ g, d.Has s c g → x = some g)
    (hnone : Draft.Agrees {} d c → x = none) : ∀ g ∈ x, g.Lies s 0 t := by
  rcases h.clause c with ⟨g, hg⟩ | ha
  · rw [hsome g (h.has _ hg)]
    rintro _ ⟨⟩
    exact hlies _ hg
  · rw [hnone ha]
    intro g hg
    cases hg

theorem select_lies (h : d.ReadFrom s t ms) (hlies : ∀ x ∈ sections s t ms, x.2.Lies s 0 t) :
    ∀ g ∈ d.select, g.Lies s 0 t := by
  rcases h.clause .select with ⟨g, hg⟩ | ha
  · obtain ⟨_, select, hr, hs⟩ := h.has _ hg
    rw [hs]
    rintro _ ⟨⟩
    exact (hlies _ hg).trans (readDistinct_spec hr).1
  · rw [show d.select = none from ha]
    intro g hg
    cases hg

theorem source_read (h : d.ReadFrom s t ms) (hlies : ∀ x ∈ sections s t ms, x.2.Lies s 0 t)
    (hsource : d.source = some source) : ∃ g, g.Lies s 0 t ∧ source.Read s g := by
  rcases h.clause .from with ⟨g, hg⟩ | ha
  · obtain ⟨f, hf, hs⟩ := h.has _ hg
    cases hsource.symm.trans hs
    exact ⟨g, hlies _ hg, FromList.read_spec hf⟩
  · cases hsource.symm.trans ha

/-- The clauses of the text hold the placeholders that the draft has in them; a clause that holds a
number has none. -/
theorem ordinals (h : d.ReadFrom s t (clauseMarks t ws)) (hsource : d.source = some source)
    (ht : source.TameIndexes) : (sections s t (clauseMarks t ws)).flatMap (·.2.ordinals s) =
      (((clauseMarks t ws).map (·.clause)).filter Clause.written.contains).flatMap
        (d.clauseOrdinals s source) := by
  rw [← sections_clauses (s := s) (t := t)]
  refine flatMap_snd_eq (fun x hx hp => ?_) fun x hx hp => ?_
  · rcases (h.has x hx).ordinals hsource ht with h | h
    · exact h
    · exact absurd (List.contains_iff_mem.1 hp) h
  · have hm : x.1 ∈ (clauseMarks t ws).map (·.clause) := by
      rw [← sections_clauses (s := s) (t := t)]
      exact List.mem_map_of_mem hx
    obtain ⟨m, hm, he⟩ := List.mem_map.1 hm
    have hx := h.has x hx
    rcases he ▸ mem_clauseMarks hm with hc | hc | hc
    · rw [List.contains_iff_mem.2 hc] at hp
      cases hp
    · rw [hc] at hx
      exact congrArg (List.range' _) (Scanner.count_eq_zero (Tame.not_mem hx))
    · rw [hc] at hx
      exact congrArg (List.range' _) (Scanner.count_eq_zero (Tame.not_mem hx))

/-- A clause that the text does not have holds nothing. -/
theorem ordinals_rest (h : d.ReadFrom s t ms) (hsource : d.source = some source) :
    ∀ c ∈ Clause.written, c ∉ (ms.map (·.clause)).filter Clause.written.contains →
      d.clauseOrdinals s source c = [] := by
  intro c hc hn
  refine Draft.clauseOrdinals_of_agrees (h.agrees c fun hm => hn ?_) hsource
  exact List.mem_filter.2 ⟨hm, List.contains_iff_mem.2 hc⟩

end Draft.ReadFrom

theorem Query.parse_spec {q : Query} (h : Query.parse s t = .ok q) : q.Read s t := by
  obtain ⟨ws, hws, h⟩ := Except.bind_eq_ok.1 h
  rw [Except.inClause_eq_ok] at hws
  obtain ⟨hb, hbetween⟩ := Scanner.wordSpans_between hws
  have horder : s.clauseOrder t = (clauseMarks t ws).map (·.clause) := by
    rw [Scanner.clauseOrder, hws]
  cases ws with
  | nil => cases h
  | cons first rest =>
    simp only at h
    split at h
    · cases h
    · rename_i hhead
      obtain ⟨d, hd, h⟩ := Except.bind_eq_ok.1 h
      have hdraft := Draft.ReadFrom.of_readAll hd
      obtain ⟨hlies, hall⟩ := sections_cover hbetween (by simpa using hhead)
      cases hsource : d.source with
      | none => rw [hsource] at h; cases h
      | some source =>
        rw [hsource] at h
        obtain ⟨n, hn, h⟩ := Except.bind_eq_ok.1 h
        cases h
        have hrest := hdraft.ordinals_rest hsource
        refine ⟨hb, (Scanner.placeholders_eq_ok.1 (Except.inClause_eq_ok.1 hn)).2.symm,
          hdraft.select_lies hlies, hdraft.source_read hlies hsource,
          hdraft.lies hlies (c := .where) (fun _ h => h) fun h => h,
          hdraft.lies hlies (c := .groupBy) (fun _ h => h) fun h => h,
          hdraft.lies hlies (c := .having) (fun _ h => h) fun h => h,
          hdraft.lies hlies (c := .orderBy) (fun _ h => h) fun h => h, fun ht => ?_, fun ht ho => ?_⟩
        · rw [← hall, hdraft.ordinals hsource ht]
          refine (flatMap_perm_of_subset (hdraft.nodup.filter _) ?_ (by decide) hrest).symm
          exact fun c hc => List.contains_iff_mem.1 (List.mem_filter.1 hc).2
        · rw [← hall, hdraft.ordinals hsource ht]
          rw [Scanner.ClausesInOrder, horder] at ho
          exact (flatMap_eq_of_sublist ho (by decide) hrest).symm

end ObjectQuery
