import ObjectQuery.Proofs.Text.Grammar

/-! # What a scan visits

A scan visits the characters outside literals, and the opening quotes. Which these are is decided
without parentheses (`Scanner.visits`), and by what follows alone, wherever a scan comes from: past
a literal it goes on where the literal ends, past any other character with the next one.

* `Scanner.map_visit_marks`: the characters that are marked are those that are visited;
* `Scanner.Follows`, `follows_marks`: each visit leads to the next one;
* `literal_of_mem_marks`, `group_of_mem_marks`: what stands at a quote that is visited, and what at
  an opening parenthesis. -/

namespace ObjectQuery

variable {s : Scanner} {t a b rest body : Text} {q c : Char} {d k n pos : Nat}
  {st : LiteralState} {opens : List Nat} {m : Mark} {ms : List Mark}

namespace LiteralState

/-- The state behind a character that stands outside literals. -/
def opened (c : Char) (pos : Nat) : LiteralState := if isQuote c then inside c pos else outside

theorem opened_quote (hc : isQuote c = true) : opened c pos = inside c pos := if_pos hc

theorem opened_of_not (hc : isQuote c = false) : opened c pos = outside := by
  rw [opened, hc]
  rfl

theorem Proper.opened (c : Char) (pos : Nat) : (opened c pos).Proper := by
  unfold LiteralState.opened
  split
  · assumption
  · trivial

theorem quoting_opened (c : Char) (pos : Nat) :
    (opened c pos).quoting = Quoting.next s c .outside := by
  unfold opened Quoting.next
  split <;> rfl

theorem relabel_opened (c : Char) (k n : Nat) : (opened c k).relabel n = opened c n := by
  unfold opened
  split <;> rfl

end LiteralState

open LiteralState (opened)

/-- The character that is marked, and its position. -/
def Mark.visit (m : Mark) : Char × Nat := (m.char, m.pos)

namespace Scanner

/-! ## Visits -/

/-- The characters outside literals and the opening quotes in the rest of a text that begins at
`pos`, each with its position. -/
def visitsFrom (s : Scanner) : LiteralState → Nat → Text → List (Char × Nat)
  | _, _, [] => []
  | st, pos, c :: t =>
    match st.next s c with
    | some inner => visitsFrom s inner (pos + 1) t
    | none => (c, pos) :: visitsFrom s (opened c pos) (pos + 1) t

/-- The characters outside literals and the opening quotes of a text. -/
def visits (s : Scanner) (t : Text) : List (Char × Nat) := s.visitsFrom .outside 0 t

theorem visitsFrom_next {inner : LiteralState} (h : st.next s c = some inner) :
    s.visitsFrom st pos (c :: t) = s.visitsFrom inner (pos + 1) t := by
  simp only [visitsFrom, h]

theorem visitsFrom_cons (h : st.next s c = none) :
    s.visitsFrom st pos (c :: t) = (c, pos) :: s.visitsFrom (opened c pos) (pos + 1) t := by
  simp only [visitsFrom, h]

/-- A character outside literals is marked, and the scan goes on. -/
theorem exists_scanFrom (h : st.next s c = none)
    (hf : (s.scanFrom st opens pos (c :: t)).fault = none) : ∃ top opens',
      s.scanFrom st opens pos (c :: t) =
        (s.scanFrom (opened c pos) opens' (pos + 1) t).visit ⟨pos, c, top⟩ := by
  rcases isQuote_or_paren_or_isPlain c with hc | rfl | rfl | hc
  · rw [LiteralState.opened_quote hc]
    exact ⟨_, _, scanFrom_quote h hc⟩
  · exact ⟨_, _, scanFrom_open h⟩
  · cases opens with
    | nil =>
      rw [scanFrom_unexpected h] at hf
      cases hf
    | cons n opens => exact ⟨_, _, scanFrom_close h⟩
  · rw [LiteralState.opened_of_not hc.1]
    exact ⟨_, _, scanFrom_plain h hc⟩

/-- Where no fault is met, the marks are the visits. -/
theorem map_visit_scanFrom (hf : (s.scanFrom st opens pos t).fault = none) :
    (s.scanFrom st opens pos t).marks.map Mark.visit = s.visitsFrom st pos t := by
  induction t generalizing st opens pos with
  | nil => cases st <;> cases opens <;> rfl
  | cons c t ih =>
    cases hn : st.next s c with
    | some inner =>
      rw [scanFrom_literal hn] at hf ⊢
      rw [visitsFrom_next hn]
      exact ih hf
    | none =>
      obtain ⟨top, opens', hscan⟩ := exists_scanFrom hn hf
      rw [hscan] at hf ⊢
      rw [visitsFrom_cons hn]
      exact congrArg ((c, pos) :: ·) (ih hf)

theorem map_visit_marks (h : s.Balanced t) : (s.scan t).marks.map Mark.visit = s.visits t :=
  map_visit_scanFrom ((scanFrom_fault_iff .outside).2 h)

/-- Where the literal that is open has begun does not matter. -/
theorem visitsFrom_relabel (n : Nat) : s.visitsFrom (st.relabel n) pos t = s.visitsFrom st pos t := by
  induction t generalizing st pos with
  | nil => rfl
  | cons c t ih =>
    cases hn : st.next s c with
    | some inner =>
      rw [visitsFrom_next hn, visitsFrom_next (by rw [LiteralState.next_relabel, hn]; rfl), ih]
    | none => rw [visitsFrom_cons hn, visitsFrom_cons (by rw [LiteralState.next_relabel, hn]; rfl)]

/-- Behind a literal that is not gone on with, the visits are those of a text of its own. -/
theorem visitsFrom_free (h : st.Free s t) : s.visitsFrom st pos t = s.visitsFrom .outside pos t := by
  cases t with
  | nil => rfl
  | cons c t => rw [visitsFrom_cons (h c rfl), visitsFrom_cons rfl]

/-- Nothing of the literal that is open is visited. -/
theorem visitsFrom_literalLength (st : LiteralState) (pos : Nat) (t : Text) :
    s.visitsFrom st pos t =
      s.visitsFrom .outside (pos + s.literalLength st t) (t.drop (s.literalLength st t)) := by
  induction t generalizing st pos with
  | nil => rfl
  | cons c t ih =>
    cases hn : st.next s c with
    | some inner =>
      simp only [literalLength, hn, List.drop_succ_cons]
      rw [visitsFrom_next hn, ih, Nat.add_assoc, Nat.add_comm 1]
    | none =>
      simp only [literalLength, hn, List.drop_zero, Nat.add_zero]
      exact visitsFrom_free fun d hd => Option.some.inj hd ▸ hn

/-- A whole literal is visited at its opening quote alone. -/
theorem visitsFrom_quote (hc : isQuote c = true)
    (hbody : s.literalLength (.inside c 0) (body ++ rest) = body.length) :
    s.visitsFrom .outside pos (c :: (body ++ rest)) =
      (c, pos) :: s.visitsFrom .outside (pos + (body.length + 1)) rest := by
  have hlabel : opened c pos = (LiteralState.inside c 0).relabel pos :=
    LiteralState.opened_quote hc
  rw [visitsFrom_cons rfl, hlabel, visitsFrom_relabel, visitsFrom_literalLength, hbody,
    List.drop_left, Nat.add_assoc, Nat.add_comm 1]

/-- Every character of a text without quotes is visited. -/
theorem visitsFrom_unquoted (ha : ∀ c ∈ a, isQuote c = false) (pos : Nat) (rest : Text) :
    s.visitsFrom .outside pos (a ++ rest) =
      a.zipIdx pos ++ s.visitsFrom .outside (pos + a.length) rest := by
  induction a generalizing pos with
  | nil => rfl
  | cons c a ih =>
    obtain ⟨hc, ha⟩ := List.forall_mem_cons.1 ha
    rw [List.cons_append, visitsFrom_cons rfl, LiteralState.opened_of_not hc, ih ha,
      List.zipIdx_cons, List.cons_append, List.length_cons, Nat.add_assoc, Nat.add_comm 1]

/-- The visits of two texts are those of the first, and then those of the second from where the
first one leads to. -/
theorem exists_visitsFrom_append (hp : st.Proper) (pos : Nat) (a : Text) : ∃ st' : LiteralState,
    st'.Proper ∧ st'.quoting = st.quoting.run s a ∧ ∀ b, s.visitsFrom st pos (a ++ b) =
      s.visitsFrom st pos a ++ s.visitsFrom st' (pos + a.length) b := by
  induction a generalizing st pos with
  | nil => exact ⟨st, hp, rfl, fun _ => rfl⟩
  | cons c a ih =>
    cases hn : st.next s c with
    | some inner =>
      obtain ⟨hp', hq, -⟩ := LiteralState.next_some hp hn
      obtain ⟨st', hst', hrun, happend⟩ := ih hp' (pos + 1)
      refine ⟨st', hst', by rw [hrun, hq, Quoting.run], fun b => ?_⟩
      rw [List.cons_append, visitsFrom_next hn, visitsFrom_next hn, happend, List.length_cons,
        Nat.add_assoc, Nat.add_comm 1]
    | none =>
      obtain ⟨st', hst', hrun, happend⟩ := ih (.opened c pos) (pos + 1)
      refine ⟨st', hst', ?_, fun b => ?_⟩
      · rw [hrun, LiteralState.quoting_opened (s := s), Quoting.run,
          LiteralState.quoting_of_next_eq_none hn]
      · rw [List.cons_append, visitsFrom_cons hn, visitsFrom_cons hn, happend, List.length_cons,
          Nat.add_assoc, Nat.add_comm 1, List.cons_append]

theorem visitsFrom_shift (st : LiteralState) (k pos : Nat) (t : Text) :
    s.visitsFrom st (k + pos) t = (s.visitsFrom st pos t).map fun v => (v.1, k + v.2) := by
  induction t generalizing st pos with
  | nil => rfl
  | cons c t ih =>
    cases hn : st.next s c with
    | some inner => rw [visitsFrom_next hn, visitsFrom_next hn, Nat.add_assoc, ih]
    | none =>
      rw [visitsFrom_cons hn, visitsFrom_cons hn, ← LiteralState.relabel_opened c pos (k + pos),
        visitsFrom_relabel, Nat.add_assoc, ih]
      rfl

/-- What is visited of a balanced text between parentheses is what is visited of it alone. -/
theorem visitsFrom_group {inner : Text} (h : s.Balanced inner) (pos : Nat) (rest : Text) :
    s.visitsFrom .outside pos ('(' :: (inner ++ ')' :: rest)) =
      ('(', pos) :: ((s.visits inner).map (fun v => (v.1, pos + 1 + v.2)) ++
        (')', pos + 1 + inner.length) ::
          s.visitsFrom .outside (pos + 1 + inner.length + 1) rest) := by
  obtain ⟨st, hp, hrun, happend⟩ := exists_visitsFrom_append (s := s) .outside (pos + 1) inner
  have hnext : st.next s ')' = none := LiteralState.next_eq_none hp (hrun.trans h.run) rfl
  rw [visitsFrom_cons rfl]
  show _ :: s.visitsFrom .outside (pos + 1) _ = _
  rw [happend, visitsFrom_cons hnext, ← Nat.add_zero (pos + 1), visitsFrom_shift]
  rfl

/-! ## From one visit to the next -/

/-- The position that a visit leads to: past the literal that begins there, or past the one
character. -/
def past (s : Scanner) (t : Text) (m : Mark) : Nat :=
  if isQuote m.char then s.literalEnd t m.pos else m.pos + 1

/-- From `pos` on, each mark stands where the one before leads to, and the last one leads to the end
of the text. -/
def Follows (s : Scanner) (t : Text) : Nat → List Mark → Prop
  | pos, [] => pos = t.length
  | pos, m :: ms => m.pos = pos ∧ t[pos]? = some m.char ∧ Follows s t (s.past t m) ms

theorem follows_scanFrom (ha : a.length = pos) (hf : (s.scanFrom st opens pos t).fault = none) :
    s.Follows (a ++ t) (pos + s.literalLength st t) (s.scanFrom st opens pos t).marks := by
  induction t generalizing a st opens pos with
  | nil =>
    have hm : (s.scanFrom st opens pos []).marks = [] := by
      cases st <;> cases opens <;> rfl
    rw [hm]
    show pos + 0 = (a ++ []).length
    simp [ha]
  | cons c t ih =>
    have hnext : a ++ c :: t = a ++ [c] ++ t := by simp
    have hlen : (a ++ [c]).length = pos + 1 := by simp [ha]
    cases hn : st.next s c with
    | some inner =>
      rw [scanFrom_literal hn] at hf ⊢
      have h := ih hlen hf
      simp only [literalLength, hn]
      rwa [hnext, Nat.add_comm _ 1, ← Nat.add_assoc]
    | none =>
      obtain ⟨top, opens', hscan⟩ := exists_scanFrom hn hf
      rw [hscan] at hf ⊢
      simp only [literalLength, hn, Nat.add_zero]
      refine ⟨rfl, by simp [← ha], ?_⟩
      have hpast : s.past (a ++ c :: t) ⟨pos, c, top⟩ =
          pos + 1 + s.literalLength (opened c pos) t := by
        subst ha
        by_cases hc : isQuote c = true
        · rw [past, if_pos hc, literalEnd_append, LiteralState.opened_quote hc]
          exact congrArg _ (literalLength_relabel a.length (.inside c 0) t).symm
        · rw [past, if_neg hc, LiteralState.opened_of_not (Bool.not_eq_true _ ▸ hc)]
          cases t <;> rfl
      rw [hpast, hnext]
      exact ih hlen hf

theorem follows_marks (h : s.Balanced t) : s.Follows t 0 (s.scan t).marks := by
  have hf : (s.scanFrom .outside [] 0 t).fault = none := (scanFrom_fault_iff .outside).2 h
  have hfollows := follows_scanFrom (a := []) rfl hf
  have hzero : s.literalLength .outside t = 0 := by cases t <;> rfl
  rwa [hzero] at hfollows

/-! ## What stands at a visit -/

/-- A mark stands outside literals. -/
theorem exists_of_mem_scanFrom {r : Reading} (hp : st.Proper)
    (hr : s.read ⟨st.quoting, opens.length⟩ t = some r)
    (hm : m ∈ (s.scanFrom st opens pos t).marks) : ∃ a b d, t = a ++ m.char :: b ∧
      m.pos = pos + a.length ∧ s.read ⟨.outside, d⟩ (m.char :: b) = some r := by
  induction t generalizing st opens pos with
  | nil => cases st <;> cases opens <;> cases hm
  | cons c t ih =>
    have hcons {st' : LiteralState} {opens' : List Nat} (hp' : st'.Proper)
        (hn : Reading.next s ⟨st.quoting, opens.length⟩ c = some ⟨st'.quoting, opens'.length⟩)
        (hm : m ∈ (s.scanFrom st' opens' (pos + 1) t).marks) : ∃ a b d,
          c :: t = a ++ m.char :: b ∧ m.pos = pos + a.length ∧
            s.read ⟨.outside, d⟩ (m.char :: b) = some r := by
      rw [read_cons, hn] at hr
      obtain ⟨a, b, d, rfl, hpos, hb⟩ := ih hp' hr hm
      exact ⟨c :: a, b, d, rfl, by rw [hpos, List.length_cons]; omega, hb⟩
    cases s.step t opens pos c hp with
    | literal hp' _ _ hn hscan =>
      rw [hscan] at hm
      exact hcons hp' hn hm
    | mark hp' hq _ _ _ hn hscan =>
      rw [hscan] at hm
      rcases List.mem_cons.1 hm with rfl | hm
      · rw [hq] at hr
        exact ⟨[], t, _, rfl, rfl, hr⟩
      · exact hcons hp' hn hm
    | unexpected hq hc ho hscan =>
      rw [hscan] at hm
      cases hm

theorem exists_of_mem_marks (h : s.Balanced t) (hm : m ∈ (s.scan t).marks) : ∃ a b d,
    t = a ++ m.char :: b ∧ m.pos = a.length ∧
      s.read ⟨.outside, d⟩ (m.char :: b) = some .start := by
  have hread : s.read ⟨LiteralState.outside.quoting, ([] : List Nat).length⟩ t = some .start := h
  obtain ⟨a, b, d, ht, hpos, hb⟩ := exists_of_mem_scanFrom .outside hread hm
  exact ⟨a, b, d, ht, hpos.trans (Nat.zero_add _), hb⟩

/-- The content of a literal and its closing quote, when the quote is not doubled. -/
theorem Content.literalLength (hq : isQuote q = true) (h : s.Content q body)
    (hrest : rest.head? ≠ some q) :
    s.literalLength (.inside q n) (body ++ q :: rest) = body.length + 1 := by
  induction h with
  | nil =>
    simp only [List.nil_append, Scanner.literalLength, LiteralState.next_quote hq]
    cases rest with
    | nil => rfl
    | cons c rest =>
      have hc : c ≠ q := fun he => hrest (congrArg some he)
      simp only [Scanner.literalLength, LiteralState.next_closing_of_ne hc]
      rfl
  | char hc he _ ih =>
    simp only [List.cons_append, Scanner.literalLength, LiteralState.next_char hc he, ih,
      List.length_cons]
  | doubled _ ih =>
    simp only [List.cons_append, Scanner.literalLength, LiteralState.next_quote hq,
      LiteralState.next_closing, ih, List.length_cons]
  | escaped he _ ih =>
    have hescaped {c : Char} : (LiteralState.escaped q n).next s c = some (.inside q n) := rfl
    simp only [List.cons_append, Scanner.literalLength, LiteralState.next_backslash he, hescaped,
      ih, List.length_cons]

/-- A literal ends behind the first quote that is not doubled. -/
theorem Content.literalEnd (hq : isQuote q = true) (h : s.Content q body)
    (hrest : rest.head? ≠ some q) :
    s.literalEnd (a ++ q :: (body ++ q :: rest)) a.length = a.length + body.length + 2 := by
  rw [literalEnd_append, h.literalLength hq hrest]
  omega

/-- At an opening quote that is visited stands a literal, which ends where `literalEnd` says. -/
theorem literal_of_mem_marks (h : s.Balanced t) (hm : m ∈ (s.scan t).marks)
    (hq : isQuote m.char = true) : ∃ a body b, t = a ++ m.char :: (body ++ m.char :: b) ∧
      a.length = m.pos ∧ s.Content m.char body ∧ b.head? ≠ some m.char ∧
      s.literalEnd t m.pos = m.pos + body.length + 2 := by
  obtain ⟨a, b, d, rfl, hpos, hread⟩ := exists_of_mem_marks h hm
  rw [read_cons, next_quote hq] at hread
  obtain ⟨body, more, rfl, hbody, hmore, -⟩ := exists_content hq hread
  refine ⟨a, body, more, rfl, hpos.symm, hbody, hmore, ?_⟩
  rw [hpos, hbody.literalEnd hq hmore]

/-- The partner of a parenthesis does not depend on what stands before. -/
theorem closingParen_append : s.closingParen (a ++ t) a.length = .ok (a.length + k) ↔
    s.closingParen t 0 = .ok k := by
  simp only [closingParen, List.drop_left, List.drop_zero]
  cases s.scan t with
  | mk marks fault =>
    dsimp only
    cases marks.find? fun m => m.char == ')' && m.top with
    | some m => simp
    | none => cases fault <;> simp

/-- Where everything is closed in the end, a parenthesis has a partner, with a balanced text
between. -/
theorem exists_group (h : s.read ⟨.outside, d⟩ ('(' :: t) = some .start) : ∃ inner more,
    t = inner ++ ')' :: more ∧ s.Balanced inner ∧ s.read ⟨.outside, d⟩ more = some .start := by
  have hopen : s.read ⟨.outside, 0 + (d + 1)⟩ t = some .start := (Nat.zero_add (d + 1)).symm ▸ h
  exact exists_closing hopen

/-- At an opening parenthesis that is visited stands a group, which ends where `closingParen`
says. -/
theorem group_of_mem_marks (h : s.Balanced t) (hm : m ∈ (s.scan t).marks) (hc : m.char = '(') :
    ∃ a inner b, t = a ++ '(' :: (inner ++ ')' :: b) ∧ a.length = m.pos ∧ s.Balanced inner ∧
      s.closingParen t m.pos = .ok (m.pos + (inner.length + 1)) := by
  obtain ⟨a, b, d, rfl, hpos, hread⟩ := exists_of_mem_marks h hm
  rw [hc] at hread ⊢
  obtain ⟨inner, more, rfl, hinner, -⟩ := exists_group hread
  refine ⟨a, inner, more, rfl, hpos.symm, hinner, ?_⟩
  rw [hpos, closingParen_append, closingParen_eq_ok]
  exact ⟨inner, more, rfl, rfl, hinner⟩

/-- No part of a group that begins with its parenthesis is balanced. -/
theorem length_lt_of_balanced_take {inner : Text} (hi : s.Balanced inner)
    (h : s.Balanced (('(' :: (inner ++ ')' :: b)).take (k + 1))) : inner.length < k := by
  rw [List.take_succ_cons] at h
  obtain ⟨shorter, more, hsplit, hshorter, -⟩ := exists_group h
  have hwhole : inner ++ ')' :: b =
      shorter ++ ')' :: (more ++ (inner ++ ')' :: b).drop k) := by
    rw [← List.cons_append, ← List.append_assoc, ← hsplit, List.take_append_drop]
  have hclose : s.closingParen ('(' :: (inner ++ ')' :: b)) 0 = .ok (inner.length + 1) :=
    closingParen_eq_ok.2 ⟨inner, b, rfl, rfl, hi⟩
  have hclose' : s.closingParen ('(' :: (inner ++ ')' :: b)) 0 = .ok (shorter.length + 1) :=
    closingParen_eq_ok.2 ⟨shorter, _, hwhole, rfl, hshorter⟩
  have hlength : inner.length + 1 = shorter.length + 1 :=
    Except.ok.inj (hclose.symm.trans hclose')
  have htake := congrArg List.length hsplit
  simp only [List.length_take, List.length_append, List.length_cons] at htake
  omega

end Scanner
end ObjectQuery
