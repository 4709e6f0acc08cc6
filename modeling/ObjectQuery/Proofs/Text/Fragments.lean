import ObjectQuery.Proofs.Text.Names
import ObjectQuery.Resolve.Fragment

/-! # The fragments of a text

Cutting a text into fragments loses nothing, and no fragment leaves a literal open: text that is
taken over marks no placeholder, a word is tame, and what stands between the parentheses of a
subquery is balanced. The placeholders of a text are therefore those of its fragments.

* `Scanner.closingParen_eq_ok`: the group that an opening parenthesis starts;
* `Fragment.flatMap_source_ofText`: the fragments make up the text;
* `Fragment.wellRead_of_mem_ofText`: what a fragment consists of;
* `Fragment.WellRead.count_source`: the placeholders of a fragment. -/

namespace ObjectQuery

variable {s : Scanner} {t rest inner more a b : Text} {opens : List Nat} {pos close : Nat}

/-! ## Groups -/

namespace Scanner

/-- The mark of a closing parenthesis with no group left open around it. -/
def closes (m : Mark) : Bool := m.char == ')' && m.top

theorem not_closes {top : Bool} {c : Char} (h : c ≠ ')') : closes ⟨pos, c, top⟩ = false := by
  simp [closes, h]

/-- The mark stands at the closing parenthesis before which everything open has been closed. -/
def ClosedBy (s : Scanner) (r : Reading) (pos : Nat) (t : Text) (m : Mark) : Prop :=
  ∃ inner more, t = inner ++ ')' :: more ∧ m = ⟨pos + inner.length, ')', true⟩ ∧
    s.read r inner = some .start

/-- A group does not end before a character that the reading gets past. -/
theorem closedBy_cons {r r' : Reading} {c : Char} {m : Mark} (hn : r.next s c = some r')
    (hc : r = .start → c ≠ ')') : s.ClosedBy r pos (c :: t) m ↔ s.ClosedBy r' (pos + 1) t m := by
  constructor
  · rintro ⟨inner, more, ht, rfl, hr⟩
    cases inner with
    | nil =>
      cases ht
      exact absurd rfl (hc (Option.some.inj hr))
    | cons d inner =>
      cases ht
      rw [read_cons, hn] at hr
      exact ⟨inner, more, rfl, by simp; omega, hr⟩
  · rintro ⟨inner, more, rfl, rfl, hr⟩
    refine ⟨c :: inner, more, rfl, by simp; omega, ?_⟩
    rw [read_cons, hn]
    exact hr

theorem closedBy_start {m : Mark} : s.ClosedBy .start pos (')' :: t) m ↔ m = ⟨pos, ')', true⟩ := by
  constructor
  · rintro ⟨inner, more, ht, rfl, hr⟩
    cases inner with
    | nil => rfl
    | cons d inner =>
      cases ht
      cases hr
  · rintro rfl
    exact ⟨[], t, rfl, rfl, rfl⟩

/-- The first mark that closes the outermost group, when `opens` lists the groups inside it. -/
theorem find_closes_iff {st : LiteralState} {n : Nat} {m : Mark} (opens : List Nat)
    (hp : st.Proper) : (s.scanFrom st (opens ++ [n]) pos t).marks.find? closes = some m ↔
      s.ClosedBy ⟨st.quoting, opens.length⟩ pos t m := by
  induction t generalizing st opens pos with
  | nil =>
    have hm : (s.scanFrom st (opens ++ [n]) pos []).marks = [] := by
      cases st <;> cases opens <;> rfl
    simp [hm, ClosedBy]
  | cons c t ih =>
    cases hn : st.next s c with
    | some st' =>
      obtain ⟨hp', hq, hc⟩ := LiteralState.next_some hp hn
      rw [scanFrom_literal hn, ih _ hp', hq]
      refine (closedBy_cons (next_literal (r := ⟨st.quoting, opens.length⟩) hc) ?_).symm
      rintro hr rfl
      exact absurd (hc (congrArg Reading.quoting hr)) (by decide)
    | none =>
      rw [LiteralState.quoting_of_next_eq_none hn]
      rcases isQuote_or_paren_or_isPlain c with hc | rfl | rfl | hc
      · have hne : c ≠ ')' := by rintro rfl; revert hc; decide
        rw [scanFrom_quote hn hc, Scan.visit, List.find?_cons_of_neg (by simp [not_closes hne]),
          ih _ (.inside hc pos)]
        exact (closedBy_cons (next_quote hc) fun _ => hne).symm
      · rw [scanFrom_open hn, Scan.visit,
          List.find?_cons_of_neg (by simp [not_closes (show '(' ≠ ')' by decide)])]
        exact (ih (pos :: opens) .outside).trans (closedBy_cons rfl fun _ => by decide).symm
      · cases opens with
        | nil =>
          rw [List.nil_append, scanFrom_close hn, Scan.visit, List.find?_cons_of_pos (by rfl),
            Option.some.injEq, eq_comm]
          exact closedBy_start.symm
        | cons k opens =>
          rw [List.cons_append, scanFrom_close hn, Scan.visit,
            List.find?_cons_of_neg (by simp [closes]), ih _ .outside]
          exact (closedBy_cons rfl fun h => by cases h).symm
      · rw [scanFrom_plain hn hc, Scan.visit, List.find?_cons_of_neg (by simp [not_closes hc.2.2]),
          ih _ .outside]
        exact (closedBy_cons (next_plain hc) fun _ => hc.2.2).symm

/-- The partner of an opening parenthesis is found exactly when a balanced text lies between. -/
theorem closingParen_eq_ok : s.closingParen ('(' :: rest) 0 = .ok close ↔
    ∃ inner more, rest = inner ++ ')' :: more ∧ close = inner.length + 1 ∧ s.Balanced inner := by
  have hscan : s.scan ('(' :: rest) =
      (s.scanFrom .outside ([] ++ [0]) 1 rest).visit ⟨0, '(', true⟩ := scanFrom_open rfl
  have hfind (m : Mark) : (s.scanFrom .outside ([] ++ [0]) 1 rest).marks.find? closes = some m ↔ _ :=
    find_closes_iff [] .outside
  have hmarks : (s.scan ('(' :: rest)).marks.find? closes =
      (s.scanFrom .outside ([] ++ [0]) 1 rest).marks.find? closes := by
    rw [hscan, Scan.visit, List.find?_cons_of_neg (by simp [closes])]
  have hclose : s.closingParen ('(' :: rest) 0 = .ok close ↔
      ∃ m, (s.scan ('(' :: rest)).marks.find? closes = some m ∧ m.pos = close := by
    simp only [closingParen, List.drop_zero]
    cases hs : s.scan ('(' :: rest) with
    | mk marks fault =>
      dsimp only
      rw [show (fun m : Mark => m.char == ')' && m.top) = closes from rfl]
      cases marks.find? closes with
      | some m => simp
      | none => cases fault <;> simp
  rw [hclose, hmarks]
  constructor
  · rintro ⟨m, hm, rfl⟩
    obtain ⟨inner, more, rfl, rfl, hr⟩ := (hfind m).1 hm
    exact ⟨inner, more, rfl, by simp; omega, hr⟩
  · rintro ⟨inner, more, rfl, rfl, hr⟩
    exact ⟨_, (hfind _).2 ⟨inner, more, rfl, rfl, hr⟩, by simp; omega⟩

/-! ## Literals -/

/-- The characters that belong to an open literal lead out of it, and none of them marks a
placeholder. -/
theorem literalLength_spec {st : LiteralState} (pos : Nat) (hp : st.Proper)
    (h : st.quoting.run s t = .outside) :
    st.quoting.run s (t.take (s.literalLength st t)) = .outside ∧
      s.questionsFrom st.quoting pos (t.take (s.literalLength st t)) = [] := by
  induction t generalizing st pos with
  | nil => exact ⟨h, rfl⟩
  | cons c t ih =>
    cases hn : st.next s c with
    | none =>
      simp only [literalLength, hn, List.take_zero]
      exact ⟨LiteralState.quoting_of_next_eq_none hn, rfl⟩
    | some st' =>
      obtain ⟨hp', hq, hc⟩ := LiteralState.next_some hp hn
      have hne : ¬ (st.quoting = .outside ∧ c = '?') := by
        rintro ⟨ho, rfl⟩
        exact absurd (hc ho) (by decide)
      simp only [literalLength, hn, List.take_succ_cons, Quoting.run, questionsFrom]
      rw [if_neg hne, ← hq]
      exact ih _ hp' (by rw [hq]; exact h)

end Scanner

/-! ## One fragment -/

namespace Text

theorem reference_prefix (t : Text) : reference t <+: t := by
  induction t with
  | nil => exact List.prefix_refl _
  | cons c t ih =>
    simp only [reference]
    split
    · exact (List.prefix_cons_inj c).2 ih
    · exact List.nil_prefix

theorem isPlain_and_ne_of_isNumberChar {c : Char} (h : isNumberChar c = true) :
    IsPlain c ∧ c ≠ '?' :=
  isPlain_and_ne_of_forall h (by decide)

theorem tame_reference (t : Text) : Tame (reference t) := by
  induction t with
  | nil => exact .nil
  | cons c t ih =>
    simp only [reference]
    split
    · rename_i hc
      refine .cons (isPlain_and_ne_of_isNumberChar ?_) ih
      simp only [isNumberChar, Bool.or_eq_true] at hc ⊢
      exact hc.imp_right fun h => (Bool.and_eq_true _ _ ▸ h).1
    · exact .nil

end Text

namespace Fragment

/-- The text after an opening parenthesis begins with `SELECT`. -/
def OpensQuery (rest : Text) : Prop :=
  Text.startsWithWord (Text.trimStart rest) "SELECT".toList = true

/-- Whether a query follows an opening parenthesis is decided before a closing one. -/
theorem opensQuery_append (a b b' : Text) (h : OpensQuery (a ++ ')' :: b)) :
    OpensQuery (a ++ ')' :: b') := by
  have htrim (b : Text) : Text.trimStart (a ++ ')' :: b) = Text.trimStart a ++ ')' :: b := by
    clear h
    induction a with
    | nil => rfl
    | cons c a ih =>
      simp only [Text.trimStart, List.cons_append, List.dropWhile_cons] at ih ⊢
      split <;> simp_all
  rw [OpensQuery, htrim] at h ⊢
  generalize Text.trimStart a = x at h ⊢
  simp only [Text.startsWithWord, Bool.and_eq_true] at h ⊢
  generalize hn : "SELECT".toList.length = n at h ⊢
  by_cases hx : n ≤ x.length
  · rw [List.take_append_of_le_length hx, List.drop_append_of_le_length hx] at h ⊢
    refine ⟨h.1, ?_⟩
    cases hd : x.drop n with
    | nil => rfl
    | cons c d => rw [hd] at h; exact h.2
  · -- the keyword would hold the parenthesis
    have htame := Text.tame_of_sameWord h.1 (by decide)
    have hmem : ')' ∈ (x ++ ')' :: b).take n := by
      obtain ⟨k, hk⟩ := Nat.exists_eq_add_of_lt (Nat.lt_of_not_le hx)
      rw [hk, show x.length + k + 1 = x.length + (k + 1) by omega, List.take_length_add_append]
      simp
    exact absurd rfl (htame _ hmem).1.2.2

/-- What a fragment consists of. -/
def WellRead (s : Scanner) : Fragment → Prop
  | verbatim v => s.Silent v
  | placeholder => True
  | word w _ => Tame w
  | subquery inner => s.Balanced inner ∧ OpensQuery (inner ++ [')'])
  | named w => Tame w

theorem WellRead.verbatim_of_tame (h : Tame t) : WellRead s (.verbatim t) :=
  ⟨h.neutral.1.run, h.neutral.2⟩

/-- A fragment starts and ends outside literals. -/
theorem WellRead.run_source {f : Fragment} (h : f.WellRead s) :
    Quoting.run s .outside f.source = .outside := by
  cases f with
  | verbatim v => exact h.1
  | placeholder => rfl
  | word w c => exact (Tame.neutral h).1.run
  | named w => exact (Tame.neutral h).1.run
  | subquery inner =>
    have hi : s.Balanced inner := h.1
    show Quoting.run s .outside (inner ++ [')']) = .outside
    rw [Quoting.run_append, hi.run]; rfl

/-- The placeholders of a fragment are the `?` in its text. -/
theorem WellRead.count_source {f : Fragment} (h : f.WellRead s) :
    s.count f.source = f.placeholders s := by
  cases f with
  | verbatim v => exact h.2
  | placeholder => rfl
  | word w c => exact (Tame.neutral h).2
  | named w => exact (Tame.neutral h).2
  | subquery inner =>
    have hi : s.Balanced inner := h.1
    show s.count (['('] ++ (inner ++ [')'])) = _
    rw [Scanner.count_append rfl, Scanner.count_append hi.run, placeholders, hi.countP_marks]
    show 0 + (s.count inner + 0) = _
    rw [Nat.zero_add, Nat.add_zero]

/-- The fragment found at the front of a text is not empty, and is what the text starts with. -/
structure Found (s : Scanner) (f : Fragment) (t : Text) : Prop where
  ne_nil : f.source ≠ []
  isPrefix : f.source <+: t
  wellRead : f.WellRead s

theorem Found.verbatim_singleton {c : Char} (hq : isQuote c = false) (hc : c ≠ '?') :
    Found s (.verbatim [c]) (c :: rest) := by
  refine ⟨nofun, ⟨rest, rfl⟩, ?_, ?_⟩
  · simp [Quoting.run, Quoting.next, hq]
  · exact Scanner.count_eq_zero (by simpa using Ne.symm hc)

/-- A balanced text that begins with `SELECT` is found between parentheses. -/
theorem group_eq_subquery (hi : s.Balanced inner) (ho : OpensQuery (inner ++ [')'])) :
    group s (inner ++ ')' :: more) = .subquery inner := by
  have ho : Text.startsWithWord (Text.trimStart (inner ++ ')' :: more)) "SELECT".toList = true :=
    opensQuery_append _ _ _ ho
  rw [group, if_pos ho,
    Scanner.closingParen_eq_ok.2 ⟨inner, more, rfl, rfl, hi⟩]
  simp

theorem found_group (rest : Text) : Found s (group s rest) ('(' :: rest) := by
  simp only [group]
  split
  · rename_i hselect
    split
    · rename_i close hclose
      obtain ⟨inner, more, rfl, rfl, hi⟩ := Scanner.closingParen_eq_ok.1 hclose
      rw [Nat.add_sub_cancel, List.take_left']
      · exact ⟨nofun, ⟨more, by simp [source]⟩, hi, opensQuery_append _ _ _ hselect⟩
      · rfl
    · exact .verbatim_singleton (by decide) (by decide)
  · exact .verbatim_singleton (by decide) (by decide)

theorem found_colon (rest : Text) : Found s (colon rest) (':' :: rest) := by
  have hcolon : IsPlain ':' ∧ ':' ≠ '?' := ⟨⟨by decide, by decide, by decide⟩, by decide⟩
  simp only [colon]
  split
  · rename_i type
    refine ⟨nofun, ?_, .verbatim_of_tame (.cons hcolon (.cons hcolon (Text.tame_reference _)))⟩
    exact (List.prefix_cons_inj ':').2 ((List.prefix_cons_inj ':').2 (Text.reference_prefix type))
  · split
    · rename_i c rest _ _
      exact ⟨nofun, (List.prefix_cons_inj ':').2 (Text.reference_prefix _),
        .cons hcolon (Text.tame_reference _)⟩
    · exact .verbatim_singleton (by decide) (by decide)
  · exact .verbatim_singleton (by decide) (by decide)

theorem found_first {c : Char} (h : Quoting.run s .outside (c :: rest) = .outside) :
    Found s (first s c rest) (c :: rest) := by
  simp only [first]
  split
  · rename_i hc
    have hq : isQuote c = true := hc
    simp only [Quoting.run, Quoting.next, hq, if_true] at h
    obtain ⟨h1, h2⟩ := Scanner.literalLength_spec 1 (.inside hc 0) h
    refine ⟨List.cons_ne_nil _ _, (List.prefix_cons_inj c).2 (List.take_prefix _ _), ?_, ?_⟩
    · simp only [Quoting.run, Quoting.next, hq, if_true]
      exact h1
    · have hne : c ≠ '?' := by
        rintro rfl
        revert hq; decide
      rw [Scanner.count, Scanner.questions, Scanner.questionsFrom, if_neg fun h => hne h.2,
        Quoting.next, if_pos hq]
      exact congrArg List.length h2
  · rename_i hnq
    have hq : isQuote c = false := Bool.not_eq_true _ ▸ hnq
    split
    · rename_i hc
      rw [beq_iff_eq.1 hc]
      exact ⟨List.cons_ne_nil _ _, ⟨rest, rfl⟩, trivial⟩
    · rename_i hne
      split
      · rename_i hc
        rw [beq_iff_eq.1 hc]
        exact found_group rest
      · split
        · rename_i hc
          rw [beq_iff_eq.1 hc]
          exact found_colon rest
        · split
          · rename_i hc
            have href : Text.reference (c :: rest) = c :: Text.reference rest := by
              simp [Text.reference, isNameChar_of_isNameStart hc]
            refine ⟨?_, Text.reference_prefix _, Text.tame_reference _⟩
            show Text.reference (c :: rest) ≠ []
            rw [href]
            exact List.cons_ne_nil _ _
          · split
            · rename_i hc
              refine ⟨List.cons_ne_nil _ _, (List.prefix_cons_inj c).2 (List.takeWhile_prefix _), ?_⟩
              refine .verbatim_of_tame (.cons (isPlain_and_ne_of_isDigit hc) fun d hd => ?_)
              exact Text.isPlain_and_ne_of_isNumberChar
                (List.all_eq_true.1 List.all_takeWhile d hd)
            · exact .verbatim_singleton hq (by simpa using hne)

/-! ## All fragments -/

theorem ofTextFrom_eq_drop (k : Nat) (t : Text) :
    ofTextFrom s k t = ofTextFrom s 0 (t.drop k) := by
  induction t generalizing k with
  | nil => cases k <;> rfl
  | cons c t ih =>
    cases k with
    | zero => rfl
    | succ k => exact ih k

/-- A text is cut into the fragment it starts with and the fragments of what follows. -/
theorem ofText_append {c : Char} {f : Fragment} (hf : first s c rest = f) (hne : f.source ≠ [])
    (h : f.source ++ more = c :: rest) : ofText s (c :: rest) = f :: ofText s more := by
  have hdrop : rest.drop (f.source.length - 1) = more := by
    cases hs : f.source with
    | nil => exact absurd hs hne
    | cons d ds =>
      rw [hs, List.cons_append, List.cons.injEq] at h
      rw [← h.2, List.length_cons, Nat.add_sub_cancel, List.drop_left']
      rfl
  simp only [ofText, ofTextFrom, hf]
  rw [ofTextFrom_eq_drop, hdrop]

/-- A text that leaves no literal open is the fragments that its rests start with, one after the
other. -/
theorem ofText_induction_first {P : Text → List Fragment → Prop} (hnil : P [] [])
    (hcons : ∀ c rest more fs, Found s (first s c rest) (c :: rest) →
      (first s c rest).source ++ more = c :: rest → Quoting.run s .outside more = .outside →
      P more fs → P (c :: rest) (first s c rest :: fs))
    (h : Quoting.run s .outside t = .outside) : P t (ofText s t) := by
  induction hn : t.length using Nat.strongRecOn generalizing t with
  | ind n ih =>
    cases t with
    | nil => exact hnil
    | cons c rest =>
      have hf := found_first h
      obtain ⟨more, hmore⟩ := hf.isPrefix
      have hrun : Quoting.run s .outside more = .outside := by
        rw [← hmore, Quoting.run_append, hf.wellRead.run_source] at h
        exact h
      have hlen : more.length < n := by
        rw [← hn, ← hmore, List.length_append]
        have := List.length_pos_iff.2 hf.ne_nil
        omega
      rw [ofText_append rfl hf.ne_nil hmore]
      exact hcons _ _ _ _ hf hmore hrun (ih _ hlen hrun rfl)

/-- A text that leaves no literal open is the fragments found in it, one after the other. -/
theorem ofText_induction {P : Text → List Fragment → Prop} (hnil : P [] [])
    (hcons : ∀ f more fs, Found s f (f.source ++ more) →
      Quoting.run s .outside more = .outside → P more fs → P (f.source ++ more) (f :: fs))
    (h : Quoting.run s .outside t = .outside) : P t (ofText s t) := by
  refine ofText_induction_first hnil (fun c rest more fs hf hmore hrun ih => ?_) h
  rw [← hmore]
  exact hcons _ _ _ (by rw [hmore]; exact hf) hrun ih

/-- The fragments make up the text. -/
theorem flatMap_source_ofText (h : Quoting.run s .outside t = .outside) :
    (ofText s t).flatMap source = t :=
  ofText_induction (P := fun t fs => fs.flatMap source = t) rfl
    (fun f more fs _ _ ih => by rw [List.flatMap_cons, ih]) h

theorem wellRead_of_mem_ofText {f : Fragment} (h : Quoting.run s .outside t = .outside)
    (hf : f ∈ ofText s t) : f.WellRead s :=
  ofText_induction (P := fun _ fs => ∀ f ∈ fs, f.WellRead s) nofun
    (fun _ _ _ hfound _ ih g hg => (List.mem_cons.1 hg).elim (· ▸ hfound.wellRead) (ih g)) h f hf

end Fragment
end ObjectQuery
