import Mathlib
import ObjectQuery.Text.Split

/-! # Readings of a text

What a scan knows about the text before it, reduced to what decides how the rest is read: whether
a literal is open (`Quoting`) and how many parentheses are (`Reading`). A doubled quote is read as
a literal that ends and another one that begins, so that a reading has no memory of the character
before it, and readings of consecutive texts compose (`Scanner.read_append`).

* `Scanner.read`: the reading after a text, `none` at a parenthesis without partner;
* `Scanner.Balanced`: a text that leaves nothing open;
* `Scanner.questions`: where the `?` outside literals stand;
* `scanFrom_fault_iff`, `scanFrom_questions`: a scan fails and marks `?` as readings say. -/

namespace ObjectQuery

/-- A character that opens a literal. -/
def isQuote (c : Char) : Bool := c == '\'' || c == '"'

/-- A character that is neither a quote nor a parenthesis. -/
def IsPlain (c : Char) : Prop := isQuote c = false ∧ c ≠ '(' ∧ c ≠ ')'

/-- Where a reading stands with respect to literals. -/
inductive Quoting
  /-- Outside every literal. -/
  | outside
  /-- Inside a literal with the given quote. -/
  | inside (quote : Char)
  /-- Inside, right after an escaping backslash. -/
  | escaped (quote : Char)
deriving DecidableEq

/-- The place after one more character. -/
def Quoting.next (s : Scanner) (c : Char) : Quoting → Quoting
  | outside => if isQuote c then inside c else outside
  | inside q =>
    if s.backslashEscapes && c == '\\' then escaped q else if c == q then outside else inside q
  | escaped q => inside q

/-- The place after a text. -/
def Quoting.run (s : Scanner) : Quoting → Text → Quoting
  | q, [] => q
  | q, c :: t => run s (q.next s c) t

/-- A place with respect to literals and parentheses. -/
structure Reading where
  quoting : Quoting
  /-- The number of open parentheses. -/
  depth : Nat
deriving DecidableEq

namespace Reading

/-- Nothing is open. -/
def start : Reading := ⟨.outside, 0⟩

/-- The reading after one more character. -/
def next (s : Scanner) (r : Reading) (c : Char) : Option Reading :=
  match r.quoting with
  | .outside =>
    if c == '(' then some ⟨.outside, r.depth + 1⟩
    else if c == ')' then
      match r.depth with
      | 0 => none
      | d + 1 => some ⟨.outside, d⟩
    else some ⟨r.quoting.next s c, r.depth⟩
  | .inside _ | .escaped _ => some ⟨r.quoting.next s c, r.depth⟩

end Reading

namespace Scanner

/-- The reading after a text. -/
def read (s : Scanner) : Reading → Text → Option Reading
  | r, [] => some r
  | r, c :: t => (r.next s c).bind fun r => read s r t

/-- The text leaves no literal and no parenthesis open, and closes none that it did not open. -/
def Balanced (s : Scanner) (t : Text) : Prop := s.read .start t = some .start

/-- The positions of the `?` outside literals, when the text starts at `pos`. -/
def questionsFrom (s : Scanner) : Quoting → Nat → Text → List Nat
  | _, _, [] => []
  | q, pos, c :: t =>
    if q = .outside ∧ c = '?' then pos :: questionsFrom s (q.next s c) (pos + 1) t
    else questionsFrom s (q.next s c) (pos + 1) t

/-- The positions of the `?` outside literals. -/
def questions (s : Scanner) (t : Text) : List Nat := s.questionsFrom .outside 0 t

/-- The number of `?` outside literals. -/
def count (s : Scanner) (t : Text) : Nat := (s.questions t).length

end Scanner

variable {s : Scanner} {t a b : Text} {q : Quoting} {r r' : Reading}

/-! ## Composition -/

@[simp] theorem Quoting.run_nil : q.run s [] = q := rfl

theorem Quoting.run_append (q : Quoting) (a b : Text) :
    q.run s (a ++ b) = (q.run s a).run s b := by
  induction a generalizing q with
  | nil => rfl
  | cons c a ih => exact ih _

/-- A literal that is open was opened by a quote. -/
def Quoting.Proper : Quoting → Prop
  | outside => True
  | inside q | escaped q => isQuote q = true

theorem Quoting.Proper.next {c : Char} (h : q.Proper) : (q.next s c).Proper := by
  cases q with
  | outside =>
    simp only [Quoting.next]
    split
    · assumption
    · trivial
  | inside q =>
    simp only [Quoting.next]
    split
    · exact h
    · split
      · trivial
      · exact h
  | escaped q => exact h

theorem Quoting.Proper.run (h : q.Proper) (t : Text) : (q.run s t).Proper := by
  induction t generalizing q with
  | nil => exact h
  | cons c t ih => exact ih h.next

namespace Scanner

@[simp] theorem read_nil (s : Scanner) (r : Reading) : s.read r [] = some r := rfl

theorem read_cons (s : Scanner) (r : Reading) (c : Char) (t : Text) :
    s.read r (c :: t) = (r.next s c).bind fun r => s.read r t := rfl

theorem read_append (s : Scanner) (r : Reading) (a b : Text) :
    s.read r (a ++ b) = (s.read r a).bind fun r => s.read r b := by
  induction a generalizing r with
  | nil => rfl
  | cons c a ih => cases h : r.next s c <;> simp [read_cons, h, ih]

/-- A reading of two texts is a reading of the first followed by one of the second. -/
theorem read_append_iff :
    s.read r (a ++ b) = some r' ↔ ∃ m, s.read r a = some m ∧ s.read m b = some r' := by
  rw [read_append, Option.bind_eq_some_iff]

theorem next_quoting (h : r.next s c = some r') : r'.quoting = r.quoting.next s c := by
  obtain ⟨q, d⟩ := r
  cases q with
  | outside =>
    simp only [Reading.next] at h
    split at h
    · cases h; simp_all [Quoting.next, isQuote]
    · split at h
      · split at h
        · cases h
        · cases h; simp_all [Quoting.next, isQuote]
      · cases h; rfl
  | inside q => cases h; rfl
  | escaped q => cases h; rfl

theorem read_quoting (h : s.read r t = some r') : r'.quoting = r.quoting.run s t := by
  induction t generalizing r with
  | nil => cases h; rfl
  | cons c t ih =>
    obtain ⟨m, hm, h⟩ := Option.bind_eq_some_iff.1 h
    rw [ih h, next_quoting hm]; rfl

theorem next_deeper (h : r.next s c = some r') (k : Nat) :
    Reading.next s ⟨r.quoting, r.depth + k⟩ c = some ⟨r'.quoting, r'.depth + k⟩ := by
  obtain ⟨q, d⟩ := r
  cases q with
  | outside =>
    simp only [Reading.next] at h ⊢
    split at h
    · cases h; simp_all; omega
    · split at h
      · cases d with
        | zero => cases h
        | succ d =>
          cases h
          have : d + 1 + k = (d + k) + 1 := by omega
          simp_all
      · cases h; simp_all
  | inside q => cases h; rfl
  | escaped q => cases h; rfl

/-- Parentheses that are open around a text do not matter for it. -/
theorem read_deeper (h : s.read r t = some r') (k : Nat) :
    s.read ⟨r.quoting, r.depth + k⟩ t = some ⟨r'.quoting, r'.depth + k⟩ := by
  induction t generalizing r with
  | nil => cases h; rfl
  | cons c t ih =>
    obtain ⟨m, hm, h⟩ := Option.bind_eq_some_iff.1 h
    rw [read_cons, next_deeper hm k]
    exact ih h

/-! ## Balanced texts -/

theorem balanced_nil : s.Balanced [] := rfl

theorem Balanced.append (ha : s.Balanced a) (hb : s.Balanced b) : s.Balanced (a ++ b) :=
  read_append_iff.2 ⟨_, ha, hb⟩

theorem Balanced.run (h : s.Balanced t) : Quoting.run s .outside t = .outside :=
  (read_quoting h).symm

theorem Balanced.read (h : s.Balanced t) (d : Nat) :
    s.read ⟨.outside, d⟩ t = some ⟨.outside, d⟩ := by
  simpa [Reading.start] using read_deeper h d

/-- What follows a balanced text in a balanced text is balanced. -/
theorem Balanced.of_append_left (ha : s.Balanced a) (h : s.Balanced (a ++ b)) : s.Balanced b := by
  obtain ⟨m, hm, hb⟩ := read_append_iff.1 h
  cases ha.symm.trans hm
  exact hb

/-- A balanced text between parentheses. -/
theorem Balanced.enclosed (h : s.Balanced t) : s.Balanced ('(' :: (t ++ [')'])) :=
  (read_append_iff (r := ⟨.outside, 1⟩)).2 ⟨_, h.read 1, rfl⟩

/-- Plain characters outside literals change nothing. -/
theorem read_plain {d : Nat} (h : ∀ c ∈ t, IsPlain c) :
    s.read ⟨.outside, d⟩ t = some ⟨.outside, d⟩ := by
  induction t with
  | nil => rfl
  | cons c t ih =>
    obtain ⟨hq, hl, hr⟩ := h c List.mem_cons_self
    rw [read_cons]
    simp only [Reading.next, beq_iff_eq, hl, hr, if_false, Quoting.next, hq, Bool.false_eq_true,
      Option.bind_some]
    exact ih fun c hc => h c (List.mem_cons_of_mem _ hc)

theorem balanced_plain (h : ∀ c ∈ t, IsPlain c) : s.Balanced t := read_plain h

/-! ## Placeholders -/

theorem questionsFrom_append (q : Quoting) (pos : Nat) (a b : Text) :
    s.questionsFrom q pos (a ++ b) =
      s.questionsFrom q pos a ++ s.questionsFrom (q.run s a) (pos + a.length) b := by
  induction a generalizing q pos with
  | nil => rfl
  | cons c a ih =>
    simp only [List.cons_append, questionsFrom, ih, Quoting.run, List.length_cons,
      Nat.add_assoc, Nat.add_comm 1]
    split <;> rfl

theorem questionsFrom_add (q : Quoting) (pos k : Nat) (t : Text) :
    s.questionsFrom q (k + pos) t = (s.questionsFrom q pos t).map (k + ·) := by
  induction t generalizing q pos with
  | nil => rfl
  | cons c t ih =>
    simp only [questionsFrom, Nat.add_assoc, ih]
    split <;> rfl

theorem questionsFrom_eq_map (q : Quoting) (pos : Nat) (t : Text) :
    s.questionsFrom q pos t = (s.questionsFrom q 0 t).map (pos + ·) :=
  questionsFrom_add q 0 pos t

theorem questionsFrom_eq_nil {pos : Nat} (h : '?' ∉ t) : s.questionsFrom q pos t = [] := by
  induction t generalizing q pos with
  | nil => rfl
  | cons c t ih =>
    rw [List.mem_cons, not_or] at h
    rw [questionsFrom, if_neg fun hc => h.1 hc.2.symm, ih h.2]

theorem questions_eq_nil (h : '?' ∉ t) : s.questions t = [] := questionsFrom_eq_nil h

theorem count_eq_zero (h : '?' ∉ t) : s.count t = 0 := by
  rw [count, questions_eq_nil h, List.length_nil]

/-- The placeholders of a text whose first part closes its literals. -/
theorem questions_append (h : Quoting.run s .outside a = .outside) :
    s.questions (a ++ b) = s.questions a ++ (s.questions b).map (a.length + ·) := by
  simp only [questions]
  rw [questionsFrom_append, h, questionsFrom_eq_map _ (0 + a.length), Nat.zero_add]

theorem count_append (h : Quoting.run s .outside a = .outside) :
    s.count (a ++ b) = s.count a + s.count b := by
  simp [count, questions_append h]

/-- The text leaves no literal open and holds no placeholder. -/
def Silent (s : Scanner) (t : Text) : Prop := Quoting.run s .outside t = .outside ∧ s.count t = 0

theorem Silent.nil : s.Silent [] := ⟨rfl, rfl⟩

theorem Silent.append (ha : s.Silent a) (hb : s.Silent b) : s.Silent (a ++ b) :=
  ⟨by rw [Quoting.run_append, ha.1, hb.1], by rw [count_append ha.1, ha.2, hb.2]⟩

/-- Two texts have the same effect outside literals, however many parentheses are open. -/
def ReadsLike (s : Scanner) (a b : Text) : Prop :=
  ∀ d, s.read ⟨.outside, d⟩ a = s.read ⟨.outside, d⟩ b

theorem ReadsLike.refl (s : Scanner) (t : Text) : s.ReadsLike t t := fun _ => rfl

theorem ReadsLike.append {a' b' : Text} (h : s.ReadsLike a b) (h' : s.ReadsLike a' b')
    (ha : Quoting.run s .outside a = .outside) : s.ReadsLike (a ++ a') (b ++ b') := by
  intro d
  rw [read_append, read_append, ← h d]
  cases hr : s.read ⟨.outside, d⟩ a with
  | none => rfl
  | some r =>
    obtain ⟨q, k⟩ := r
    cases (read_quoting hr).trans ha
    exact h' k

theorem ReadsLike.balanced (h : s.ReadsLike a b) (hb : s.Balanced b) : s.Balanced a :=
  (h 0).trans hb

theorem Balanced.readsLike_nil (h : s.Balanced t) : s.ReadsLike t [] := h.read

/-! ## Blanks -/

theorem isPlain_of_isBlank {c : Char} (h : isBlank c = true) : IsPlain c := by
  refine ⟨Bool.not_eq_true _ ▸ fun hq => ?_, ?_, ?_⟩
  · simp only [isQuote, Bool.or_eq_true, beq_iff_eq] at hq
    rcases hq with rfl | rfl <;> revert h <;> decide
  · rintro rfl; revert h; decide
  · rintro rfl; revert h; decide

theorem not_mem_blanks (h : ∀ c ∈ t, isBlank c = true) : '?' ∉ t := fun hc => by
  have := h _ hc
  revert this; decide

/-- Blanks close nothing: what is complete after blanks was complete before them. -/
theorem read_blanks {d : Nat} (hr : r.quoting.Proper) (hb : ∀ c ∈ b, isBlank c = true)
    (h : s.read r b = some ⟨.outside, d⟩) : r = ⟨.outside, d⟩ := by
  induction b generalizing r with
  | nil => cases h; rfl
  | cons c b ih =>
    obtain ⟨m, hm, h⟩ := Option.bind_eq_some_iff.1 h
    have hq := next_quoting hm
    cases ih (hq ▸ hr.next) (fun c hc => hb c (List.mem_cons_of_mem _ hc)) h
    obtain ⟨hnq, hl, hp⟩ := isPlain_of_isBlank (hb c List.mem_cons_self)
    obtain ⟨q, k⟩ := r
    cases q with
    | outside =>
      simp only [Reading.next, beq_iff_eq, hl, hp, if_false, Quoting.next, hnq] at hm
      exact Option.some.inj hm
    | inside q =>
      simp only [Quoting.next] at hq
      split at hq
      · cases hq
      · split at hq
        · rename_i hcq
          rw [beq_iff_eq.1 hcq] at hnq
          simp [Quoting.Proper, hnq] at hr
        · cases hq
    | escaped q => cases hq

/-- Blanks at the end of a balanced text do not matter. -/
theorem Balanced.of_append_blanks (hb : ∀ c ∈ b, isBlank c = true) (h : s.Balanced (a ++ b)) :
    s.Balanced a := by
  obtain ⟨m, hm, h⟩ := read_append_iff.1 h
  have hp : m.quoting.Proper := by
    rw [read_quoting hm]
    exact Quoting.Proper.run (q := .outside) trivial a
  exact hm.trans (congrArg some (read_blanks hp hb h))

end Scanner

/-! ## Scans -/

namespace LiteralState

/-- What of the state decides how the rest is read. -/
def quoting : LiteralState → Quoting
  | outside | closing _ _ => .outside
  | inside q _ => .inside q
  | escaped q _ => .escaped q

/-- The literal that is open, or has just ended, was opened by a quote. -/
def Proper : LiteralState → Prop
  | outside => True
  | inside q _ | escaped q _ | closing q _ => isQuote q = true

variable {st st' : LiteralState} {c : Char}

theorem Proper.outside : Proper outside := trivial

theorem Proper.inside (h : isQuote c = true) (n : Nat) : Proper (inside c n) := h

theorem quoting_of_next_eq_none (h : st.next s c = none) : st.quoting = .outside := by
  cases st with
  | outside | closing => rfl
  | inside q n =>
    simp only [next] at h
    split at h
    · cases h
    · split at h <;> cases h
  | escaped => cases h

/-- A character of a literal: it is no placeholder, and the states agree after it. -/
theorem next_some (hp : st.Proper) (h : st.next s c = some st') :
    st'.Proper ∧ st'.quoting = st.quoting.next s c ∧ (st.quoting = .outside → isQuote c = true) := by
  cases st with
  | outside => cases h
  | inside q n =>
    simp only [next] at h
    split at h
    · cases h
      refine ⟨hp, ?_, nofun⟩
      simp_all [quoting, Quoting.next]
    · split at h
      · cases h
        refine ⟨hp, ?_, nofun⟩
        simp_all [quoting, Quoting.next]
      · cases h
        refine ⟨hp, ?_, nofun⟩
        simp_all [quoting, Quoting.next]
  | escaped q n =>
    cases h
    exact ⟨hp, rfl, nofun⟩
  | closing q n =>
    simp only [next] at h
    split at h
    · rename_i hc
      cases h
      rw [beq_iff_eq.1 hc]
      refine ⟨hp, ?_, fun _ => hp⟩
      have hq : isQuote q = true := hp
      simp [quoting, Quoting.next, hq]
    · cases h

end LiteralState

namespace Scanner

variable {st : LiteralState} {opens : List Nat} {pos : Nat}

theorem next_literal {c : Char} (h : r.quoting = .outside → isQuote c = true) :
    r.next s c = some ⟨r.quoting.next s c, r.depth⟩ := by
  obtain ⟨q, d⟩ := r
  cases q with
  | outside =>
    have hc := h rfl
    simp only [isQuote, Bool.or_eq_true, beq_iff_eq] at hc
    rcases hc with rfl | rfl <;> rfl
  | inside | escaped => rfl

section
variable {c : Char}

theorem scanFrom_literal {inner : LiteralState} (h : st.next s c = some inner) :
    s.scanFrom st opens pos (c :: t) = s.scanFrom inner opens (pos + 1) t := by
  simp only [scanFrom, h]

theorem scanFrom_quote (h : st.next s c = none) (hc : isQuote c = true) :
    s.scanFrom st opens pos (c :: t) =
      (s.scanFrom (.inside c pos) opens (pos + 1) t).visit ⟨pos, c, opens.isEmpty⟩ := by
  simp only [isQuote] at hc
  simp only [scanFrom, h, hc, if_true]

theorem scanFrom_open (h : st.next s '(' = none) :
    s.scanFrom st opens pos ('(' :: t) =
      (s.scanFrom .outside (pos :: opens) (pos + 1) t).visit ⟨pos, '(', opens.isEmpty⟩ := by
  simp [scanFrom, h]

theorem scanFrom_close {n : Nat} (h : st.next s ')' = none) :
    s.scanFrom st (n :: opens) pos (')' :: t) =
      (s.scanFrom .outside opens (pos + 1) t).visit ⟨pos, ')', opens.isEmpty⟩ := by
  simp [scanFrom, h]

theorem scanFrom_unexpected (h : st.next s ')' = none) :
    s.scanFrom st [] pos (')' :: t) = ⟨[], some (.unexpectedParenthesis pos)⟩ := by
  simp [scanFrom, h]

theorem scanFrom_plain (h : st.next s c = none) (hc : IsPlain c) :
    s.scanFrom st opens pos (c :: t) =
      (s.scanFrom .outside opens (pos + 1) t).visit ⟨pos, c, opens.isEmpty⟩ := by
  obtain ⟨hq, hl, hr⟩ := hc
  simp only [isQuote] at hq
  simp [scanFrom, h, hq, hl, hr]

theorem next_quote {d : Nat} (hc : isQuote c = true) :
    Reading.next s ⟨.outside, d⟩ c = some ⟨.inside c, d⟩ := by
  rw [next_literal fun _ => hc]
  simp only [Quoting.next, hc, if_true]

theorem next_plain {d : Nat} (hc : IsPlain c) :
    Reading.next s ⟨.outside, d⟩ c = some ⟨.outside, d⟩ := by
  simpa [read_cons] using read_plain (s := s) (d := d) (t := [c]) (by simpa using hc)

theorem isQuote_or_paren_or_isPlain (c : Char) :
    isQuote c = true ∨ c = '(' ∨ c = ')' ∨ IsPlain c := by
  by_cases hq : isQuote c = true
  · exact .inl hq
  · by_cases hl : c = '('
    · exact .inr (.inl hl)
    · by_cases hr : c = ')'
      · exact .inr (.inr (.inl hr))
      · exact .inr (.inr (.inr ⟨Bool.not_eq_true _ ▸ hq, hl, hr⟩))

end

/-- What one character does to a scan. -/
inductive Step (s : Scanner) (t : Text) (st : LiteralState) (opens : List Nat) (pos : Nat) (c : Char) :
    Prop
  /-- It belongs to the literal that is open. -/
  | literal {inner : LiteralState} (hp : inner.Proper) (hst : st ≠ .outside)
    (hc : st.quoting = .outside → isQuote c = true)
    (hn : Reading.next s ⟨st.quoting, opens.length⟩ c = some ⟨inner.quoting, opens.length⟩)
    (hscan : s.scanFrom st opens pos (c :: t) = s.scanFrom inner opens (pos + 1) t)
  /-- It is marked. -/
  | mark {st' : LiteralState} {opens' : List Nat} {top : Bool} (hp : st'.Proper)
    (hq : st.quoting = .outside) (hplain : IsPlain c → st' = .outside ∧ opens = opens')
    (hopen : c ≠ ')' → top = opens.isEmpty)
    (hclose : c = ')' → ∃ n, opens = n :: opens' ∧ st' = .outside ∧ top = opens'.isEmpty)
    (hn : Reading.next s ⟨st.quoting, opens.length⟩ c = some ⟨st'.quoting, opens'.length⟩)
    (hscan : s.scanFrom st opens pos (c :: t) =
      (s.scanFrom st' opens' (pos + 1) t).visit ⟨pos, c, top⟩)
  /-- It closes a group, and no group is open. -/
  | unexpected (hq : st.quoting = .outside) (hc : c = ')') (ho : opens = [])
    (hscan : s.scanFrom st opens pos (c :: t) = ⟨[], some (.unexpectedParenthesis pos)⟩)

/-- A scan and a reading take the same steps. -/
theorem step (s : Scanner) (t : Text) (opens : List Nat) (pos : Nat) (c : Char) (hp : st.Proper) :
    s.Step t st opens pos c := by
  cases h : st.next s c with
  | some inner =>
    obtain ⟨hp', hq, hc⟩ := LiteralState.next_some hp h
    refine .literal hp' ?_ hc (by rw [next_literal hc, hq]) (scanFrom_literal h)
    rintro rfl
    cases h
  | none =>
    have hq := LiteralState.quoting_of_next_eq_none h
    rcases isQuote_or_paren_or_isPlain c with hc | rfl | rfl | hc
    · refine .mark (.inside hc pos) hq (fun hplain => ?_) (fun _ => rfl) ?_
        (by rw [hq, next_quote hc]; rfl) (scanFrom_quote h hc)
      · rw [hplain.1] at hc
        cases hc
      · rintro rfl
        cases hc
    · exact .mark .outside hq (fun hplain => absurd rfl hplain.2.1) (fun _ => rfl)
        (fun hc => absurd hc (by decide)) (by rw [hq]; rfl) (scanFrom_open h)
    · cases opens with
      | nil => exact .unexpected hq rfl rfl (scanFrom_unexpected h)
      | cons n outer =>
        exact .mark .outside hq (fun hplain => absurd rfl hplain.2.2) (fun hc => absurd rfl hc)
          (fun _ => ⟨n, rfl, rfl, rfl⟩) (by rw [hq]; rfl) (scanFrom_close h)
    · exact .mark .outside hq (fun _ => ⟨rfl, rfl⟩) (fun _ => rfl) (fun he => absurd he hc.2.2)
        (by rw [hq, next_plain hc]; rfl) (scanFrom_plain h hc)

/-- A scan meets no fault exactly when nothing is open in the end. -/
theorem scanFrom_fault_iff (hp : st.Proper) :
    (s.scanFrom st opens pos t).fault = none ↔
      s.read ⟨st.quoting, opens.length⟩ t = some .start := by
  induction t generalizing st opens pos with
  | nil =>
    cases st <;> cases opens <;>
      simp [scanFrom, Scan.atEnd, LiteralState.quoting, Reading.start]
  | cons c t ih =>
    rw [read_cons]
    cases s.step t opens pos c hp with
    | literal hp' _ _ hn hscan =>
      rw [hscan, hn]
      exact ih hp'
    | mark hp' _ _ _ _ hn hscan =>
      rw [hscan, hn]
      exact ih hp'
    | unexpected hq hc ho hscan =>
      subst hc ho
      rw [hscan, hq]
      simp [Reading.next]

/-- The `?` that a scan marks are those outside literals. -/
theorem scanFrom_questions (hp : st.Proper)
    (h : s.read ⟨st.quoting, opens.length⟩ t = some r) :
    ((s.scanFrom st opens pos t).marks.filter (·.char == '?')).map (·.pos) =
      s.questionsFrom st.quoting pos t := by
  induction t generalizing st opens pos with
  | nil => cases st <;> cases opens <;> rfl
  | cons c t ih =>
    rw [read_cons] at h
    rw [questionsFrom]
    cases s.step t opens pos c hp with
    | literal hp' _ hc hn hscan =>
      have hne : ¬ (st.quoting = .outside ∧ c = '?') := by
        rintro ⟨ho, rfl⟩
        exact absurd (hc ho) (by decide)
      rw [hn] at h
      rw [hscan, if_neg hne, ← next_quoting hn]
      exact ih hp' h
    | mark hp' hq _ _ _ hn hscan =>
      rw [hn] at h
      rw [hscan, ← next_quoting hn, ← ih hp' h, Scan.visit, List.filter_cons]
      by_cases hc : c = '?'
      · simp [hq, hc]
      · simp [hc]
    | unexpected hq hc ho =>
      subst hc ho
      rw [hq] at h
      cases h

theorem marks_eq_ok {ms : List Mark} :
    s.marks t = .ok ms ↔ s.Balanced t ∧ (s.scan t).marks = ms := by
  have hf : (s.scanFrom .outside [] 0 t).fault = none ↔ _ := scanFrom_fault_iff .outside
  unfold marks scan Balanced
  rw [show (Reading.start : Reading) = ⟨LiteralState.outside.quoting, [].length⟩ from rfl] at *
  rw [← hf]
  cases h : s.scanFrom .outside [] 0 t with
  | mk marks fault => cases fault <;> simp

theorem validate_eq_ok : s.validate t = .ok () ↔ s.Balanced t := by
  unfold validate
  cases h : s.marks t with
  | ok ms => simpa [Except.map] using (marks_eq_ok.1 h).1
  | error e =>
    simp only [Except.map, reduceCtorEq, false_iff]
    intro hb
    rw [marks_eq_ok.2 ⟨hb, rfl⟩] at h
    cases h

/-- The `?` marked in a balanced text are those outside literals. -/
theorem Balanced.questions (h : s.Balanced t) :
    ((s.scan t).marks.filter (·.char == '?')).map (·.pos) = s.questions t :=
  scanFrom_questions .outside h

theorem Balanced.countP_marks (h : s.Balanced t) :
    (s.scan t).marks.countP (·.char == '?') = s.count t := by
  rw [count, ← h.questions, List.length_map, List.countP_eq_length_filter]

/-- Counting placeholders succeeds for balanced texts. -/
theorem placeholders_eq_ok {n : Nat} :
    s.placeholders t = .ok n ↔ s.Balanced t ∧ s.count t = n := by
  unfold placeholders
  cases h : s.marks t with
  | ok ms =>
    obtain ⟨hb, rfl⟩ := marks_eq_ok.1 h
    simp [bind, Except.bind, pure, Except.pure, hb, hb.countP_marks]
  | error e =>
    simp only [bind, Except.bind, reduceCtorEq, false_iff, not_and]
    intro hb
    rw [marks_eq_ok.2 ⟨hb, rfl⟩] at h
    cases h

end Scanner
end ObjectQuery
