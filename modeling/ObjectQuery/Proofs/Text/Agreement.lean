import ObjectQuery.Proofs.Text.Cells
import ObjectQuery.Proofs.Text.Visits
import ObjectQuery.Resolve.Expr

/-! # One reading of literals and groups

An expression is cut into fragments position by position: past a literal with `Scanner.literalEnd`,
past a subquery with `Scanner.closingParen`, without a scan of the whole text. Where a scan accepts
the text, these ways of reading agree with it.

* `Fragment.Cuts`: the cut of a text, turn by turn;
* `Fragment.outer`: the characters that a fragment takes for ones outside literals;
* `Scanner.Agrees`, `validate_agrees`: all of a text is read in one way. -/

namespace ObjectQuery

variable {s : Scanner} {t a rest more inner : Text} {f : Fragment} {c : Char} {d i pos : Nat}

namespace Fragment

/-! ## The cut, turn by turn -/

/-- From position `i` on the text is cut into the fragments, which hold `n` placeholders. Each
constructor is a turn, with the position that it leads to; one that asks for the partner of a
parenthesis, or counts the placeholders of a subquery, gets an answer. -/
inductive Cuts (s : Scanner) (t : Text) : Nat → List Fragment → Nat → Prop
  | done : Cuts s t t.length [] 0
  | literal {i n : Nat} {q : Char} {rest : Text} {fs : List Fragment} (hi : t.drop i = q :: rest)
    (hq : isQuote q = true) (h : Cuts s t (s.literalEnd t i) fs n) :
    Cuts s t i (.verbatim ((Span.mk i (s.literalEnd t i)).slice t) :: fs) n
  | subquery {i close k n : Nat} {rest : Text} {fs : List Fragment} (hi : t.drop i = '(' :: rest)
    (hselect : OpensQuery rest) (hclose : s.closingParen t i = .ok close)
    (hcount : s.placeholders ((Span.mk (i + 1) close).slice t) = .ok k)
    (h : Cuts s t (close + 1) fs n) :
    Cuts s t i (.subquery ((Span.mk (i + 1) close).slice t) :: fs) (k + n)
  | placeholder {i n : Nat} {rest : Text} {fs : List Fragment} (hi : t.drop i = '?' :: rest)
    (h : Cuts s t (i + 1) fs n) : Cuts s t i (.placeholder :: fs) (n + 1)
  | other {i n : Nat} {c : Char} {rest : Text} {f : Fragment} {fs : List Fragment}
    (hi : t.drop i = c :: rest) (hq : isQuote c = false) (hp : c ≠ '?')
    (hgroup : c = '(' → ¬OpensQuery rest) (hf : first s c rest = f)
    (h : Cuts s t (i + f.source.length) fs n) : Cuts s t i (f :: fs) n

theorem slice_group (a inner rest : Text) :
    (Span.mk (a.length + 1) (a.length + (inner.length + 1))).slice
      (a ++ '(' :: (inner ++ ')' :: rest)) = inner := by
  have hdrop : (a ++ '(' :: (inner ++ ')' :: rest)).drop (a.length + 1) = inner ++ ')' :: rest := by
    rw [← List.drop_drop, List.drop_left]
    rfl
  rw [Nat.add_comm inner.length, ← Nat.add_assoc]
  exact Scanner.slice_of_drop hdrop

theorem Found.count (hf : Found s f (c :: rest)) (hmore : f.source ++ more = c :: rest) :
    s.count (c :: rest) = f.placeholders s + s.count more := by
  rw [← hmore, Scanner.count_append hf.wellRead.run_source, hf.wellRead.count_source]

theorem placeholders_colon (rest : Text) : (colon rest).placeholders s = 0 := by
  unfold colon
  split
  · rfl
  · split <;> rfl
  · rfl

/-- Placeholders stand in the fragments that begin with one, and in subqueries. -/
theorem placeholders_first (hp : c ≠ '?') (hgroup : c = '(' → ¬OpensQuery rest) :
    (first s c rest).placeholders s = 0 := by
  rw [first_eq, if_neg hp]
  split
  · rfl
  · split
    · rename_i hc
      have hno : ¬Text.startsWithWord (Text.trimStart rest) "SELECT".toList = true := hgroup hc
      rw [group, if_neg hno]
      rfl
    · split
      · exact placeholders_colon rest
      · split
        · rfl
        · split <;> rfl

/-- The literal that begins at a quote lies between the quote and where it ends. -/
theorem slice_literal (a : Text) (c : Char) (rest : Text) :
    s.literalEnd (a ++ c :: rest) a.length =
        a.length + (c :: rest.take (s.literalLength (.inside c 0) rest)).length ∧
      (Span.mk a.length (s.literalEnd (a ++ c :: rest) a.length)).slice (a ++ c :: rest) =
        c :: rest.take (s.literalLength (.inside c 0) rest) := by
  have hlen := s.literalLength_le (.inside c 0) rest
  have hend : s.literalEnd (a ++ c :: rest) a.length =
      a.length + (c :: rest.take (s.literalLength (.inside c 0) rest)).length := by
    rw [Scanner.literalEnd_append, List.length_cons, List.length_take, Nat.min_eq_left hlen]
    omega
  have hsplit : (a ++ c :: rest).drop a.length =
      (c :: rest.take (s.literalLength (.inside c 0) rest)) ++
        rest.drop (s.literalLength (.inside c 0) rest) := by
    rw [List.drop_left, List.cons_append, List.take_append_drop]
  exact ⟨hend, hend ▸ Scanner.slice_of_drop hsplit⟩

/-- The turn at a quote. -/
theorem Cuts.cons_literal {n : Nat} {fs : List Fragment} (hq : isQuote c = true) :
    let f := Fragment.verbatim (c :: rest.take (s.literalLength (.inside c 0) rest))
    Cuts s (a ++ c :: rest) (a.length + f.source.length) fs n →
      Cuts s (a ++ c :: rest) a.length (f :: fs) n := by
  intro f h
  obtain ⟨hend, hslice⟩ := slice_literal (s := s) a c rest
  have hsource : f.source = c :: rest.take (s.literalLength (.inside c 0) rest) := rfl
  rw [hsource, ← hend] at h
  have hturn := Cuts.literal List.drop_left hq h
  rwa [hslice] at hturn

/-- The turn at the parenthesis of a subquery. -/
theorem Cuts.cons_subquery {n : Nat} {fs : List Fragment}
    (hselect : OpensQuery (inner ++ ')' :: more)) (hinner : s.Balanced inner)
    (h : Cuts s (a ++ '(' :: (inner ++ ')' :: more))
      (a.length + (Fragment.subquery inner).source.length) fs n) :
    Cuts s (a ++ '(' :: (inner ++ ')' :: more)) a.length (.subquery inner :: fs)
      ((Fragment.subquery inner).placeholders s + n) := by
  have hclose : s.closingParen (a ++ '(' :: (inner ++ ')' :: more)) a.length =
      .ok (a.length + (inner.length + 1)) :=
    Scanner.closingParen_append.2 (Scanner.closingParen_eq_ok.2 ⟨inner, more, rfl, rfl, hinner⟩)
  have hslice : (Span.mk (a.length + 1) (a.length + (inner.length + 1))).slice
      (a ++ '(' :: (inner ++ ')' :: more)) = inner := slice_group a inner more
  have hcount : s.placeholders inner = .ok ((Fragment.subquery inner).placeholders s) :=
    Scanner.placeholders_eq_ok.2 ⟨hinner, hinner.countP_marks.symm⟩
  have hlen : (Fragment.subquery inner).source.length = inner.length + 1 + 1 := by
    simp [source]
  rw [hlen, ← Nat.add_assoc] at h
  have hturn := Cuts.subquery List.drop_left hselect hclose (hslice.symm ▸ hcount) h
  rwa [hslice] at hturn

/-- One turn finds the fragment that the rest of the text begins with. -/
theorem Cuts.cons {n : Nat} {fs : List Fragment} (hf : Found s (first s c rest) (c :: rest))
    (hread : s.read ⟨.outside, d⟩ (c :: rest) = some .start)
    (h : Cuts s (a ++ c :: rest) (a.length + (first s c rest).source.length) fs n) :
    Cuts s (a ++ c :: rest) a.length (first s c rest :: fs)
      ((first s c rest).placeholders s + n) := by
  have hdrop : (a ++ c :: rest).drop a.length = c :: rest := List.drop_left
  generalize hfirst : first s c rest = f at hf h ⊢
  by_cases hq : isQuote c = true
  · rw [first_eq, if_pos hq] at hfirst
    subst hfirst
    rw [placeholders, Nat.zero_add]
    exact .cons_literal hq h
  by_cases hp : c = '?'
  · subst hp
    rw [first_eq, if_neg hq, if_pos rfl] at hfirst
    subst hfirst
    rw [placeholders, Nat.add_comm]
    exact .placeholder hdrop h
  by_cases hgroup : c = '(' ∧ OpensQuery rest
  · obtain ⟨rfl, hselect⟩ := hgroup
    obtain ⟨inner, more, rfl, hinner, -⟩ := Scanner.exists_group hread
    rw [first_eq, if_neg hq, if_neg hp, if_pos rfl,
      group_eq_subquery hinner (opensQuery_append _ _ _ hselect)] at hfirst
    subst hfirst
    exact .cons_subquery hselect hinner h
  · have hgroup : c = '(' → ¬OpensQuery rest := fun hc ho => hgroup ⟨hc, ho⟩
    rw [← hfirst, placeholders_first hp hgroup, hfirst, Nat.zero_add]
    exact .other hdrop (Bool.not_eq_true _ ▸ hq) hp hgroup hfirst h

/-- The fragments of a text are those that the turns find, wherever the text stands. -/
theorem cuts_ofText (h : s.read ⟨.outside, d⟩ t = some .start) (a : Text) :
    Cuts s (a ++ t) a.length (ofText s t) (s.count t) := by
  have hrun : Quoting.run s .outside t = .outside := (Scanner.read_quoting h).symm
  refine ofText_induction_first (P := fun t fs => ∀ d, s.read ⟨.outside, d⟩ t = some .start →
    ∀ a, Cuts s (a ++ t) a.length fs (s.count t)) ?_ ?_ hrun d h a
  · intro d _ a
    rw [List.append_nil]
    exact .done
  · intro c rest more fs hf hmore _ ih d hread a
    have hread' := hread
    rw [← hmore] at hread'
    obtain ⟨⟨q, d'⟩, hm, hread'⟩ := Scanner.read_append_iff.1 hread'
    obtain rfl : q = .outside := (Scanner.read_quoting hm).trans hf.wellRead.run_source
    have hnext := ih d' hread' (a ++ (first s c rest).source)
    rw [List.append_assoc, hmore, List.length_append] at hnext
    rw [hf.count hmore]
    exact hnext.cons hf hread

/-! ## Outside literals -/

/-- The characters of a fragment that stands at `pos` which are taken for ones outside literals: of a
literal its quote, of a subquery its parentheses and what a scan of it visits, of any other fragment
all of them. -/
def outer (s : Scanner) (pos : Nat) : Fragment → List (Char × Nat)
  | verbatim u => if u.head?.any isQuote then (u.take 1).zipIdx pos else u.zipIdx pos
  | subquery inner => ('(', pos) :: ((s.scan inner).marks.map (fun m => (m.char, pos + 1 + m.pos)) ++
      [(')', pos + 1 + inner.length)])
  | placeholder => [('?', pos)]
  | word w _ | named w => w.zipIdx pos

/-- The characters of the fragments that follow one another from `pos` on. -/
def outerAll (s : Scanner) : Nat → List Fragment → List (Char × Nat)
  | _, [] => []
  | pos, f :: fs => f.outer s pos ++ outerAll s (pos + f.source.length) fs

/-- What is visited of a fragment is what the fragment takes for characters outside literals. -/
theorem Lexes.visitsFrom (h : Lexes s more f) (pos : Nat) :
    s.visitsFrom .outside pos (f.source ++ more) =
      f.outer s pos ++ s.visitsFrom .outside (pos + f.source.length) more := by
  have hunquoted {u : Text} (hu : ∀ c ∈ u, isQuote c = false) := s.visitsFrom_unquoted hu pos more
  cases f with
  | verbatim u =>
    rw [outer]
    rcases h.verbatim_cases with ⟨q, body, rfl, hq, -, hbody⟩ | hu
    · simp only [List.head?_cons, Option.any_some, hq, if_true]
      exact Scanner.visitsFrom_quote hq hbody
    · have hhead : u.head?.any isQuote = false := by
        cases u with
        | nil => rfl
        | cons c u => exact hu c List.mem_cons_self
      rw [hhead]
      exact hunquoted hu
  | placeholder => exact hunquoted (List.forall_mem_singleton.2 rfl)
  | word w called => exact hunquoted fun c hc => (h.word_tame c hc).1.1
  | named w =>
    cases h with
    | named hname =>
      have htame : Tame _ := hname ▸ Text.tame_reference _
      exact hunquoted (List.forall_mem_cons.2 ⟨rfl, fun c hc => (htame c hc).1.1⟩)
  | subquery inner =>
    cases h with
    | subquery hinner =>
      have hlen : (Fragment.subquery inner).source.length = 1 + inner.length + 1 := by
        simp [source]
        omega
      have hmarks : (s.scan inner).marks.map (fun m => (m.char, pos + 1 + m.pos)) =
          (s.visits inner).map fun v => (v.1, pos + 1 + v.2) := by
        rw [← Scanner.map_visit_marks hinner, List.map_map]
        rfl
      rw [outer, hmarks, hlen]
      simpa [source, Nat.add_assoc] using s.visitsFrom_group hinner pos more

theorem visitsFrom_ofText (h : Quoting.run s .outside t = .outside) (pos : Nat) :
    s.visitsFrom .outside pos t = outerAll s pos (ofText s t) :=
  ofText_induction_first (P := fun t fs => ∀ pos, s.visitsFrom .outside pos t = outerAll s pos fs)
    (fun _ => rfl)
    (fun c rest more fs hf hmore _ ih pos => by
      rw [outerAll, ← ih, ← (lexes_first hf hmore).visitsFrom, hmore]) h pos

end Fragment

/-! ## Agreement -/

open Fragment (ofText)

/-- All ways in which literals and groups of a text are read agree with a scan of it. -/
structure Scanner.Agrees (s : Scanner) (t : Text) : Prop where
  /-- At a quote that is visited stands a literal, up to the first quote of its kind that is not
  doubled and not escaped; it ends where `literalEnd` says. -/
  literals : ∀ m ∈ (s.scan t).marks, isQuote m.char = true → ∃ before body after,
    t = before ++ m.char :: (body ++ m.char :: after) ∧ before.length = m.pos ∧
      s.Content m.char body ∧ after.head? ≠ some m.char ∧
        s.literalEnd t m.pos = m.pos + body.length + 2
  /-- The scan goes on where `literalEnd` says, and else with the next character. -/
  follows : s.Follows t 0 (s.scan t).marks
  /-- At a parenthesis that is visited stands a group, and `closingParen` finds the first position at
  which it is closed. -/
  groups : ∀ m ∈ (s.scan t).marks, m.char = '(' → ∃ close, s.closingParen t m.pos = .ok close ∧
    IsLeast {c | m.pos ≤ c ∧ s.validate ((Span.mk m.pos (c + 1)).slice t) = .ok ()} close ∧
      s.validate ((Span.mk (m.pos + 1) close).slice t) = .ok ()
  /-- What the fragments take for characters outside literals is what the scan visits. -/
  outer : (s.scan t).marks.map Mark.visit = Fragment.outerAll s 0 (ofText s t)
  /-- No turn of the cut into fragments fails, and the placeholders that they count are all of the
  text. -/
  cuts : ∃ n, s.placeholders t = .ok n ∧ Fragment.Cuts s t 0 (ofText s t) n
  /-- These fragments are what is resolved. -/
  resolves : ∀ subquery clause bare join param,
    resolveExpr s subquery clause bare join param t = do
      let pieces ← resolveFragments s subquery clause bare join param (ofText s t)
      return Expr.ofPieces pieces ((ofText s t).any Fragment.isAggregate)

namespace Scanner

theorem closingParen_isLeast {m : Mark} (h : s.Balanced t) (hm : m ∈ (s.scan t).marks)
    (hc : m.char = '(') : ∃ close, s.closingParen t m.pos = .ok close ∧
      IsLeast {c | m.pos ≤ c ∧ s.validate ((Span.mk m.pos (c + 1)).slice t) = .ok ()} close ∧
        s.validate ((Span.mk (m.pos + 1) close).slice t) = .ok () := by
  obtain ⟨a, inner, b, rfl, hpos, hinner, hclose⟩ := group_of_mem_marks h hm hc
  rw [← hpos] at hclose ⊢
  have hslice (k : Nat) : (Span.mk a.length (a.length + k + 1)).slice
      (a ++ '(' :: (inner ++ ')' :: b)) = ('(' :: (inner ++ ')' :: b)).take (k + 1) := by
    rw [Span.slice, Nat.add_assoc, List.take_length_add_append, List.drop_left]
  refine ⟨_, hclose, ⟨⟨Nat.le_add_right _ _, ?_⟩, ?_⟩, ?_⟩
  · have hgroup : ('(' :: (inner ++ ')' :: b)).take (inner.length + 1 + 1) =
        '(' :: (inner ++ [')']) := by
      rw [List.take_succ_cons, List.take_length_add_append]
      rfl
    rw [hslice, hgroup, validate_eq_ok]
    exact hinner.enclosed
  · rintro c ⟨hle, hvalid⟩
    obtain ⟨k, rfl⟩ := Nat.exists_eq_add_of_le hle
    rw [hslice, validate_eq_ok] at hvalid
    have hlt := length_lt_of_balanced_take hinner hvalid
    omega
  · rw [Fragment.slice_group, validate_eq_ok]
    exact hinner

/-- A text that a scan accepts is read in one way only. -/
theorem validate_agrees (h : s.validate t = .ok ()) : s.Agrees t := by
  have hb : s.Balanced t := validate_eq_ok.1 h
  refine ⟨fun m hm hq => literal_of_mem_marks hb hm hq, follows_marks hb,
    fun m hm hc => closingParen_isLeast hb hm hc, ?_, ⟨_, placeholders_eq_ok.2 ⟨hb, rfl⟩, ?_⟩, ?_⟩
  · rw [map_visit_marks hb]
    exact Fragment.visitsFrom_ofText hb.run 0
  · exact Fragment.cuts_ofText (d := 0) hb []
  · intro subquery clause bare join param
    rw [resolveExpr, h]
    rfl

end Scanner

/-- A condition with a literal that holds a quote and a parenthesis, and with a subquery. -/
def Sample.membership : Text :=
  "u.name <> 'it''s (' AND u.id IN (SELECT p.id FROM Phone p WHERE p.number = ?)".toList

theorem Scanner.validate_agrees_membership :
    ({} : Scanner).validate Sample.membership = .ok () ∧ ({} : Scanner).Agrees Sample.membership :=
  have h : ({} : Scanner).validate Sample.membership = .ok () := by decide +kernel
  ⟨h, validate_agrees h⟩

end ObjectQuery
