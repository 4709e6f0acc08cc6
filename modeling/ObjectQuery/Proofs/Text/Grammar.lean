import ObjectQuery.Proofs.Text.Lexemes

/-! # Balanced texts and their faults

A grammar of the texts that are accepted: plain characters, complete literals, and such texts between
parentheses (`Scanner.WellFormed`). A text that is not accepted has one fault (`Scanner.Fails`): a
closing parenthesis behind a text that is complete without it, or else a literal that never ends, or
else the innermost parenthesis that is still open.

* `balanced_iff_wellFormed`: the texts that leave nothing open are those of the grammar;
* `WellFormed.scanFrom`, `Opens.scan`: a scan gets past the texts of the grammar;
* `fault_eq_some_iff`: the fault that a scan finds;
* `validate_accepts`: what is accepted, and what is reported otherwise. -/

namespace ObjectQuery

variable {s : Scanner} {t u v a b rest body : Text} {q c : Char} {d d' k n : Nat} {ns : List Nat}
  {st st' : LiteralState} {f : Fault} {opens : List Nat} {pos : Nat}

namespace Scanner

/-! ## The grammar -/

/-- What may stand between the quotes of a literal. -/
inductive Content (s : Scanner) (q : Char) : Text → Prop
  | nil : Content s q []
  | char {c : Char} {t : Text} (hq : c ≠ q) (he : s.backslashEscapes = true → c ≠ '\\')
    (h : Content s q t) : Content s q (c :: t)
  /-- A quote that is written twice. -/
  | doubled {t : Text} (h : Content s q t) : Content s q (q :: q :: t)
  /-- A backslash with the character that it escapes, whatever that is. -/
  | escaped {c : Char} {t : Text} (he : s.backslashEscapes = true) (h : Content s q t) :
    Content s q ('\\' :: c :: t)

/-- The texts in which every literal is complete and every parenthesis has its partner. -/
inductive WellFormed (s : Scanner) : Text → Prop
  | nil : WellFormed s []
  | plain {c : Char} {t : Text} (hc : IsPlain c) (h : WellFormed s t) : WellFormed s (c :: t)
  /-- A literal, up to a quote that is not doubled. -/
  | literal {q : Char} {body t : Text} (hq : isQuote q = true) (hbody : s.Content q body)
    (hend : t.head? ≠ some q) (h : WellFormed s t) : WellFormed s (q :: (body ++ q :: t))
  | group {inner t : Text} (hi : WellFormed s inner) (h : WellFormed s t) :
    WellFormed s ('(' :: (inner ++ ')' :: t))

theorem Content.append (ha : s.Content q a) (hb : s.Content q b) : s.Content q (a ++ b) := by
  induction ha with
  | nil => exact hb
  | char hq he _ ih => exact .char hq he ih
  | doubled _ ih => exact .doubled ih
  | escaped he _ ih => exact .escaped he ih

theorem quote_ne_backslash (hq : isQuote q = true) : q ≠ '\\' := by
  rintro rfl
  cases hq

theorem next_inside_quote (hq : isQuote q = true) :
    Reading.next s ⟨.inside q, d⟩ q = some ⟨.outside, d⟩ := by
  simp [Reading.next, Quoting.next, quote_ne_backslash hq]

theorem next_inside_char (hq : c ≠ q) (he : s.backslashEscapes = true → c ≠ '\\') :
    Reading.next s ⟨.inside q, d⟩ c = some ⟨.inside q, d⟩ := by
  have hno : ¬(s.backslashEscapes = true ∧ c = '\\') := fun h => he h.1 h.2
  simp [Reading.next, Quoting.next, hno, hq]

theorem next_inside_backslash (he : s.backslashEscapes = true) :
    Reading.next s ⟨.inside q, d⟩ '\\' = some ⟨.escaped q, d⟩ := by
  simp [Reading.next, Quoting.next, he]

/-- The content of a literal does not end it. -/
theorem Content.read (hq : isQuote q = true) (h : s.Content q body) (d : Nat) :
    s.read ⟨.inside q, d⟩ body = some ⟨.inside q, d⟩ := by
  induction h with
  | nil => rfl
  | char hc he _ ih =>
    rw [read_cons, next_inside_char hc he]
    exact ih
  | doubled _ ih =>
    rw [read_cons, next_inside_quote hq, Option.bind_some, read_cons, next_quote hq]
    exact ih
  | escaped he _ ih =>
    rw [read_cons, next_inside_backslash he]
    exact ih

theorem balanced_literal (hq : isQuote q = true) (h : s.Content q body) :
    s.Balanced (q :: (body ++ [q])) := by
  have hend : s.read ⟨.inside q, 0⟩ [q] = some .start := by
    rw [read_cons, next_inside_quote hq]
    rfl
  rw [Balanced, Reading.start, read_cons, next_quote hq]
  exact read_append_iff.2 ⟨_, h.read hq 0, hend⟩

theorem WellFormed.balanced (h : s.WellFormed t) : s.Balanced t := by
  induction h with
  | nil => exact balanced_nil
  | plain hc _ ih =>
    exact Balanced.append (a := [_]) (balanced_plain (List.forall_mem_singleton.2 hc)) ih
  | @literal q body t hq hbody _ _ ih =>
    have hsplit : q :: (body ++ q :: t) = q :: (body ++ [q]) ++ t := by simp
    exact hsplit ▸ (balanced_literal hq hbody).append ih
  | @group inner t _ _ hi ih =>
    have hsplit : '(' :: (inner ++ ')' :: t) = '(' :: (inner ++ [')']) ++ t := by simp
    exact hsplit ▸ hi.enclosed.append ih

/-- Only a closing parenthesis without partner stops a reading. -/
theorem exists_next {r : Reading} (h : ¬(r.quoting = .outside ∧ r.depth = 0 ∧ c = ')')) :
    ∃ m, r.next s c = some m := by
  obtain ⟨q, k⟩ := r
  cases q with
  | inside | escaped => exact ⟨_, rfl⟩
  | outside =>
    simp only [Reading.next]
    split
    · exact ⟨_, rfl⟩
    · split
      · rename_i hc
        cases k with
        | zero => exact absurd ⟨rfl, rfl, beq_iff_eq.1 hc⟩ h
        | succ k => exact ⟨_, rfl⟩
      · exact ⟨_, rfl⟩

/-- Where a text closes a group that it did not open, a balanced text comes before. -/
theorem exists_closing {p : Quoting} (h : s.read ⟨p, k + (d + 1)⟩ t = some .start) :
    ∃ inner more, t = inner ++ ')' :: more ∧ s.read ⟨p, k⟩ inner = some .start ∧
      s.read ⟨.outside, d⟩ more = some .start := by
  induction t generalizing p k with
  | nil => cases congrArg Reading.depth (Option.some.inj h)
  | cons c t ih =>
    by_cases hc : p = .outside ∧ k = 0 ∧ c = ')'
    · obtain ⟨rfl, rfl, rfl⟩ := hc
      rw [Nat.zero_add] at h
      exact ⟨[], t, rfl, rfl, h⟩
    · obtain ⟨m, hm⟩ := exists_next (s := s) (r := ⟨p, k⟩) hc
      rw [read_cons, next_deeper hm (d + 1)] at h
      obtain ⟨inner, more, rfl, hinner, hmore⟩ := ih h
      refine ⟨c :: inner, more, rfl, ?_, hmore⟩
      rw [read_cons, hm]
      exact hinner

/-- Where a text ends a literal that was open, the content of the literal comes before. -/
theorem exists_content (hq : isQuote q = true)
    (h : s.read ⟨.inside q, d⟩ t = some ⟨.outside, d'⟩) :
    ∃ body more, t = body ++ q :: more ∧ s.Content q body ∧ more.head? ≠ some q ∧
      s.read ⟨.outside, d⟩ more = some ⟨.outside, d'⟩ := by
  induction hn : t.length using Nat.strong_induction_on generalizing t with
  | _ n ih =>
  cases t with
  | nil => cases h
  | cons c t =>
    rw [List.length_cons] at hn
    by_cases he : s.backslashEscapes = true ∧ c = '\\'
    · obtain ⟨he, rfl⟩ := he
      rw [read_cons, next_inside_backslash he] at h
      cases t with
      | nil => cases h
      | cons e t =>
        rw [List.length_cons] at hn
        obtain ⟨body, more, rfl, hbody, hmore⟩ := ih t.length (by omega) h rfl
        exact ⟨'\\' :: e :: body, more, rfl, .escaped he hbody, hmore⟩
    by_cases hc : c = q
    · subst hc
      rw [read_cons, next_inside_quote hq] at h
      by_cases hhead : t.head? = some c
      · -- the quote is doubled, and the literal goes on
        obtain ⟨t, rfl⟩ := List.head?_eq_some_iff.1 hhead
        rw [Option.bind_some, read_cons, next_quote hq] at h
        rw [List.length_cons] at hn
        obtain ⟨body, more, rfl, hbody, hmore⟩ := ih t.length (by omega) h rfl
        exact ⟨c :: c :: body, more, rfl, .doubled hbody, hmore⟩
      · exact ⟨[], t, rfl, .nil, hhead, h⟩
    · have he : s.backslashEscapes = true → c ≠ '\\' := fun hs hb => he ⟨hs, hb⟩
      rw [read_cons, next_inside_char hc he] at h
      obtain ⟨body, more, rfl, hbody, hmore⟩ := ih t.length (by omega) h rfl
      exact ⟨c :: body, more, rfl, .char hc he hbody, hmore⟩

theorem Balanced.wellFormed (h : s.Balanced t) : s.WellFormed t := by
  induction hn : t.length using Nat.strong_induction_on generalizing t with
  | _ n ih =>
  cases t with
  | nil => exact .nil
  | cons c t =>
    rw [List.length_cons] at hn
    rcases isQuote_or_paren_or_isPlain c with hc | rfl | rfl | hc
    · rw [Balanced, Reading.start, read_cons, next_quote hc] at h
      obtain ⟨body, more, rfl, hbody, hend, hmore⟩ := exists_content hc h
      rw [List.length_append, List.length_cons] at hn
      exact .literal hc hbody hend (ih more.length (by omega) hmore rfl)
    · obtain ⟨inner, more, rfl, hinner, hmore⟩ := exists_closing (k := 0) (d := 0) h
      rw [List.length_append, List.length_cons] at hn
      exact .group (ih inner.length (by omega) hinner rfl) (ih more.length (by omega) hmore rfl)
    · cases h
    · rw [Balanced, Reading.start, read_cons, next_plain hc] at h
      exact .plain hc (ih t.length (by omega) h rfl)

theorem balanced_iff_wellFormed : s.Balanced t ↔ s.WellFormed t :=
  ⟨Balanced.wellFormed, WellFormed.balanced⟩

/-! ## Faults -/

/-- In the text the parentheses at the positions `ns` are open, the innermost first; what stands
before, between and after them is complete. -/
inductive Opens (s : Scanner) : Text → List Nat → Prop
  | complete {t : Text} (h : s.WellFormed t) : Opens s t []
  | group {t u : Text} {ns : List Nat} (h : Opens s t ns) (hu : s.WellFormed u) :
    Opens s (t ++ '(' :: u) (t.length :: ns)

/-- What stands behind the quote of a literal that does not end: its content, after which a
backslash may be left that escapes nothing. -/
inductive Endless (s : Scanner) (q : Char) : Text → Prop
  | content {body : Text} (h : s.Content q body) : Endless s q body
  | backslash {body : Text} (he : s.backslashEscapes = true) (h : s.Content q body) :
    Endless s q (body ++ ['\\'])

/-- What is wrong with a text, and before which of its characters. -/
inductive Fails (s : Scanner) (t : Text) : Fault → Prop
  /-- No parenthesis is left open before a closing one. -/
  | unexpected {u v : Text} (ht : t = u ++ ')' :: v) (hu : s.WellFormed u) :
    Fails s t (.unexpectedParenthesis u.length)
  /-- A literal begins that does not end. The quote is not the second one of two, with which the
  literal before it would go on. -/
  | unterminated {u v : Text} {q : Char} {ns : List Nat} (ht : t = u ++ q :: v)
    (hu : s.Opens u ns) (hq : isQuote q = true) (hlast : u.getLast? ≠ some q)
    (hv : s.Endless q v) : Fails s t (.unterminatedQuote q u.length)
  /-- A parenthesis is left open, and none behind it. -/
  | unclosed {n : Nat} {ns : List Nat} (ht : s.Opens t (n :: ns)) :
    Fails s t (.unclosedParenthesis n)

theorem Opens.append (h : s.Opens t ns) (hu : s.Balanced u) : s.Opens (t ++ u) ns := by
  cases h with
  | complete h => exact .complete (h.balanced.append hu).wellFormed
  | @group t v ns h hv =>
    rw [List.append_assoc, List.cons_append]
    exact .group h (hv.balanced.append hu).wellFormed

theorem Opens.opened (h : s.Opens t ns) : s.Opens (t ++ ['(']) (t.length :: ns) :=
  .group h .nil

theorem Opens.closed (h : s.Opens t (n :: ns)) : s.Opens (t ++ [')']) ns := by
  cases h with
  | @group t u ns h hu =>
    have hgroup := h.append hu.balanced.enclosed
    simpa using hgroup

end Scanner

/-! ## Faults are found -/

namespace LiteralState

theorem next_char (hq : c ≠ q) (he : s.backslashEscapes = true → c ≠ '\\') :
    (inside q n).next s c = some (inside q n) := by
  have hno : ¬(s.backslashEscapes = true ∧ c = '\\') := fun h => he h.1 h.2
  simp [next, hno, hq]

theorem next_quote (hq : isQuote q = true) : (inside q n).next s q = some (closing q n) := by
  simp [next, Scanner.quote_ne_backslash hq]

theorem next_backslash (he : s.backslashEscapes = true) :
    (inside q n).next s '\\' = some (escaped q n) := by
  simp [next, he]

theorem next_closing : (closing q n).next s q = some (inside q n) :=
  if_pos (beq_self_eq_true q)

theorem next_closing_of_ne (h : c ≠ q) : (closing q n).next s c = none :=
  if_neg (by simpa using h)

/-- Behind the text no literal is open, though the quote that it ends with may be doubled. -/
structure Behind (s : Scanner) (t : Text) (st : LiteralState) : Prop where
  proper : st.Proper
  quoting : st.quoting = .outside
  free : ∀ c, t.getLast? ≠ some c → st.next s c = none

theorem Behind.outside (t : Text) : outside.Behind s t := ⟨trivial, rfl, fun _ _ => rfl⟩

theorem Behind.closing (hq : isQuote q = true) (t : Text) (n : Nat) :
    (closing q n).Behind s (t ++ [q]) :=
  ⟨hq, rfl, fun c hc => next_closing_of_ne fun he => hc (by rw [he, List.getLast?_concat])⟩

theorem Behind.next_eq_none (h : st.Behind s t) (hc : isQuote c = false) : st.next s c = none :=
  LiteralState.next_eq_none h.proper h.quoting hc

end LiteralState

namespace Scanner

theorem Content.scanFrom (hq : isQuote q = true) (h : s.Content q body) (pos : Nat) :
    s.scanFrom (.inside q n) opens pos (body ++ rest) =
      s.scanFrom (.inside q n) opens (pos + body.length) rest := by
  induction h generalizing pos with
  | nil => rfl
  | char hc he _ ih =>
    rw [List.cons_append, scanFrom_literal (LiteralState.next_char hc he), ih, List.length_cons,
      Nat.add_assoc, Nat.add_comm 1]
  | doubled _ ih =>
    rw [List.cons_append, List.cons_append, scanFrom_literal (LiteralState.next_quote hq),
      scanFrom_literal LiteralState.next_closing, ih, List.length_cons, List.length_cons]
    congr 1
    omega
  | escaped he _ ih =>
    rw [List.cons_append, List.cons_append, scanFrom_literal (LiteralState.next_backslash he),
      scanFrom_literal rfl, ih, List.length_cons, List.length_cons]
    congr 1
    omega

/-- A scan gets past a text of the grammar, and no parenthesis is open that was not before. -/
theorem WellFormed.scanFrom (h : s.WellFormed u) (hst : st.Behind s t) (hfree : st.Free s u)
    (opens : List Nat) (pos : Nat) (rest : Text) : ∃ st' : LiteralState, st'.Behind s (t ++ u) ∧
      (s.scanFrom st opens pos (u ++ rest)).fault =
        (s.scanFrom st' opens (pos + u.length) rest).fault := by
  induction h generalizing t st opens pos rest with
  | nil => exact ⟨st, by rwa [List.append_nil], rfl⟩
  | @plain c u hc _ ih =>
    obtain ⟨st', hst', hfault⟩ := ih (.outside (t ++ [c])) (.outside u) opens (pos + 1) rest
    refine ⟨st', by simpa using hst', ?_⟩
    rw [List.cons_append, scanFrom_plain (hfree c rfl) hc, Scan.visit, hfault, List.length_cons,
      Nat.add_assoc, Nat.add_comm 1]
  | @literal q body u hq hbody hend _ ih =>
    have hclosing : LiteralState.Free s (.closing q pos) u := fun c hc =>
      LiteralState.next_closing_of_ne fun he => hend (he ▸ hc)
    obtain ⟨st', hst', hfault⟩ := ih (.closing hq (t ++ q :: body) pos) hclosing opens
      (pos + 1 + body.length + 1) rest
    refine ⟨st', by simpa using hst', ?_⟩
    rw [List.cons_append, List.append_assoc, scanFrom_quote (hfree q rfl) hq, Scan.visit,
      hbody.scanFrom hq, List.cons_append, scanFrom_literal (LiteralState.next_quote hq), hfault]
    congr 2
    simp only [List.length_cons, List.length_append]
    omega
  | @group inner u _ _ hi ih =>
    obtain ⟨st₁, hst₁, hinner⟩ := hi (.outside (t ++ ['('])) (.outside inner) (pos :: opens)
      (pos + 1) (')' :: (u ++ rest))
    obtain ⟨st', hst', hfault⟩ := ih (.outside (t ++ '(' :: (inner ++ [')']))) (.outside u) opens
      (pos + 1 + inner.length + 1) rest
    refine ⟨st', by simpa using hst', ?_⟩
    rw [List.cons_append, List.append_assoc, scanFrom_open (hfree '(' rfl), Scan.visit,
      List.cons_append, hinner, scanFrom_close (hst₁.next_eq_none rfl), Scan.visit, hfault]
    congr 2
    simp only [List.length_cons, List.length_append]
    omega

/-- A scan gets past a text that leaves parentheses open. -/
theorem Opens.scan (h : s.Opens u ns) (rest : Text) : ∃ st' : LiteralState, st'.Behind s u ∧
    (s.scan (u ++ rest)).fault = (s.scanFrom st' ns u.length rest).fault := by
  induction h generalizing rest with
  | complete h =>
    obtain ⟨st', hst', hfault⟩ := h.scanFrom (.outside []) (.outside _) [] 0 rest
    rw [Nat.zero_add] at hfault
    exact ⟨st', hst', hfault⟩
  | @group t u ns _ hu ih =>
    obtain ⟨st₁, hst₁, hbefore⟩ := ih ('(' :: (u ++ rest))
    obtain ⟨st', hst', hfault⟩ :=
      hu.scanFrom (.outside (t ++ ['('])) (.outside u) (t.length :: ns) (t.length + 1) rest
    refine ⟨st', by simpa using hst', ?_⟩
    rw [List.append_assoc, List.cons_append, hbefore, scanFrom_open (hst₁.next_eq_none rfl),
      Scan.visit, hfault]
    congr 2
    simp only [List.length_cons, List.length_append]
    omega

/-- The rest of a literal that does not end. -/
theorem Endless.scanFrom (hq : isQuote q = true) (h : s.Endless q v) (pos : Nat) :
    (s.scanFrom (.inside q n) opens pos v).fault = some (.unterminatedQuote q n) := by
  cases h with
  | content h =>
    have hscan : s.scanFrom (.inside q n) opens pos (v ++ []) =
        s.scanFrom (.inside q n) opens (pos + v.length) [] := h.scanFrom hq pos
    rw [List.append_nil] at hscan
    rw [hscan]
    rfl
  | backslash he h =>
    rw [h.scanFrom hq, scanFrom_literal (LiteralState.next_backslash he)]
    rfl

theorem Fails.fault (h : s.Fails t f) : (s.scan t).fault = some f := by
  cases h with
  | @unexpected u v ht hu =>
    subst ht
    obtain ⟨st, hst, hfault⟩ := (Opens.complete hu).scan (')' :: v)
    rw [hfault, scanFrom_unexpected (hst.next_eq_none rfl)]
  | @unterminated u v q ns ht hu hq hlast hv =>
    subst ht
    obtain ⟨st, hst, hfault⟩ := hu.scan (q :: v)
    rw [hfault, scanFrom_quote (hst.free q hlast) hq, Scan.visit, hv.scanFrom hq]
  | @unclosed n ns ht =>
    obtain ⟨st, hst, hfault⟩ := ht.scan []
    rw [List.append_nil] at hfault
    rw [hfault]
    cases st with
    | outside | closing => rfl
    | inside | escaped => cases hst.quoting

/-! ## Every fault is one of these -/

/-- A literal begins behind the text, at whose end the parentheses `ns` are open. -/
structure Begins (s : Scanner) (t : Text) (q : Char) (ns : List Nat) : Prop where
  opens : s.Opens t ns
  quote : isQuote q = true
  first : t.getLast? ≠ some q

/-- Where a scan stands behind a text. -/
inductive Came (s : Scanner) (t : Text) : LiteralState → List Nat → Prop
  | outside {ns : List Nat} (h : s.Opens t ns) (hlast : ∀ c ∈ t.getLast?, isQuote c = false) :
    Came s t .outside ns
  | inside {u body : Text} {q : Char} {ns : List Nat} (h : s.Begins u q ns)
    (hb : s.Content q body) (ht : t = u ++ q :: body) : Came s t (.inside q u.length) ns
  | escaped {u body : Text} {q : Char} {ns : List Nat} (h : s.Begins u q ns)
    (hb : s.Content q body) (he : s.backslashEscapes = true) (ht : t = u ++ q :: (body ++ ['\\'])) :
    Came s t (.escaped q u.length) ns
  | closing {u body : Text} {q : Char} {ns : List Nat} (h : s.Begins u q ns)
    (hb : s.Content q body) (ht : t = u ++ q :: (body ++ [q])) : Came s t (.closing q u.length) ns

theorem Came.start : s.Came [] .outside [] := .outside (.complete .nil) nofun

/-- A character of the literal that is open. -/
theorem Came.next (h : s.Came t st ns) (hn : st.next s c = some st') :
    s.Came (t ++ [c]) st' ns := by
  cases h with
  | outside => cases hn
  | @inside u body q _ h hb ht =>
    subst ht
    by_cases he : s.backslashEscapes = true ∧ c = '\\'
    · obtain ⟨he, rfl⟩ := he
      cases (LiteralState.next_backslash he).symm.trans hn
      exact .escaped h hb he (by simp)
    have he : s.backslashEscapes = true → c ≠ '\\' := fun hs hc => he ⟨hs, hc⟩
    by_cases hc : c = q
    · subst hc
      cases (LiteralState.next_quote h.quote).symm.trans hn
      exact .closing h hb (by simp)
    · cases (LiteralState.next_char hc he).symm.trans hn
      exact .inside h (hb.append (.char hc he .nil)) (by simp)
  | @escaped u body q _ h hb he ht =>
    subst ht
    cases hn
    exact .inside h (hb.append (.escaped (c := c) he .nil)) (by simp)
  | @closing u body q _ h hb ht =>
    subst ht
    by_cases hc : c = q
    · subst hc
      cases LiteralState.next_closing.symm.trans hn
      exact .inside h (hb.append (.doubled .nil)) (by simp)
    · cases (LiteralState.next_closing_of_ne hc).symm.trans hn

/-- A character outside of literals. -/
theorem Came.opens_of_next (h : s.Came t st ns) (hn : st.next s c = none) :
    s.Opens t ns ∧ (isQuote c = true → t.getLast? ≠ some c) := by
  cases h with
  | outside h hlast =>
    refine ⟨h, fun hq hc => ?_⟩
    rw [hlast c hc] at hq
    cases hq
  | @inside u body q _ h hb ht =>
    exact absurd (LiteralState.quoting_of_next_eq_none hn) (by simp [LiteralState.quoting])
  | escaped => cases hn
  | @closing u body q _ h hb ht =>
    subst ht
    refine ⟨h.opens.append (balanced_literal h.quote hb), fun hq hlast => ?_⟩
    rw [← List.cons_append, ← List.append_assoc, List.getLast?_concat] at hlast
    cases hlast
    rw [LiteralState.next_closing] at hn
    cases hn

theorem fails_of_scanFrom (h : s.Came t st ns)
    (hf : (s.scanFrom st ns t.length rest).fault = some f) : s.Fails (t ++ rest) f := by
  induction rest generalizing t st ns with
  | nil =>
    rw [List.append_nil]
    cases h with
    | inside h hb ht =>
      cases hf
      exact .unterminated ht h.opens h.quote h.first (.content hb)
    | escaped h hb he ht =>
      cases hf
      exact .unterminated ht h.opens h.quote h.first (.backslash he hb)
    | outside h =>
      cases ns with
      | nil => cases hf
      | cons n ns =>
        cases hf
        exact .unclosed h
    | closing h hb ht =>
      cases ns with
      | nil => cases hf
      | cons n ns =>
        cases hf
        exact .unclosed (ht ▸ h.opens.append (balanced_literal h.quote hb))
  | cons c rest ih =>
    have happend : t ++ c :: rest = t ++ [c] ++ rest := by simp
    have hlength : t.length + 1 = (t ++ [c]).length := by simp
    cases hn : st.next s c with
    | some st' =>
      rw [scanFrom_literal hn, hlength] at hf
      exact happend ▸ ih (h.next hn) hf
    | none =>
      obtain ⟨hopens, hfirst⟩ := h.opens_of_next hn
      rcases isQuote_or_paren_or_isPlain c with hc | rfl | rfl | hc
      · rw [scanFrom_quote hn hc, Scan.visit, hlength] at hf
        exact happend ▸ ih (.inside ⟨hopens, hc, hfirst hc⟩ .nil rfl) hf
      · rw [scanFrom_open hn, Scan.visit, hlength] at hf
        exact happend ▸ ih (.outside hopens.opened (by simp [isQuote])) hf
      · cases ns with
        | nil =>
          rw [scanFrom_unexpected hn] at hf
          cases hf
          cases hopens with
          | complete hu => exact .unexpected rfl hu
        | cons n ns =>
          rw [scanFrom_close hn, Scan.visit, hlength] at hf
          exact happend ▸ ih (.outside hopens.closed (by simp [isQuote])) hf
      · rw [scanFrom_plain hn hc, Scan.visit, hlength] at hf
        have hplain : s.Balanced [c] := balanced_plain (List.forall_mem_singleton.2 hc)
        exact happend ▸ ih (.outside (hopens.append hplain) (by simpa using hc.1)) hf

/-- The fault that a scan finds. -/
theorem fault_eq_some_iff : (s.scan t).fault = some f ↔ s.Fails t f :=
  ⟨fun h => fails_of_scanFrom (t := []) .start h, Fails.fault⟩

theorem validate_eq_error :
    s.validate t = .error f ↔ ∃ g, (s.scan t).fault = some g ∧ g.mapOffset t.byteOffset = f := by
  unfold validate marks
  cases h : s.scan t with
  | mk marks fault => cases fault <;> simp [Except.map]

/-- A text is accepted exactly when it is one of the grammar. Otherwise what is reported is the first
closing parenthesis without a partner, or, where there is none, the literal that does not end, or
else the innermost parenthesis that is open, each at the number of bytes before it. -/
theorem validate_accepts (s : Scanner) (t : Text) :
    (s.validate t = .ok () ↔ s.WellFormed t) ∧
      ∀ fault, s.validate t = .error fault ↔
        ∃ place, s.Fails t place ∧ place.mapOffset t.byteOffset = fault := by
  refine ⟨validate_eq_ok.trans balanced_iff_wellFormed, fun fault => ?_⟩
  simp only [validate_eq_error, fault_eq_some_iff]

/-- A quote written twice does not end the literal, and an offset counts bytes. -/
example : Scanner.validate {} "(ü 'it''s)".toList = .error (.unterminatedQuote '\'' 4) := by
  decide +kernel

end Scanner
end ObjectQuery
