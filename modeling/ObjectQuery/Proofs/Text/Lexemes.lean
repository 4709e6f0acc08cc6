import ObjectQuery.Proofs.Text.Fragments

/-! # What stands at the front of a text

The characters that a text starts with, and those behind them, decide what its first fragment is
(`Fragment.Lexes`): a literal is taken with all that belongs to it, a word or a number with all the
characters that it can have, and every other character stands for itself. The quotes of a text are
therefore those of its literals and of its subqueries.

* `Fragment.lexes_first`, `Fragment.ofText_lexes`: the fragments of a text are what stands there;
* `Text.path?_eq_some`: a path is identifiers with points between them;
* `Scanner.scanFrom_literalLength`: a scan gets past a literal;
* `Scanner.quote_mem_scanFrom`: the literals in a part of a text end in it. -/

namespace ObjectQuery

variable {s : Scanner} {t rest more after a b : Text} {c : Char} {m : Mark} {st : LiteralState}
  {opens : List Nat} {pos : Nat}

/-! ## Fragments -/

theorem Quoting.run_of_unquoted (h : ∀ c ∈ t, isQuote c = false) :
    Quoting.run s .outside t = .outside := by
  induction t with
  | nil => rfl
  | cons c t ih =>
    rw [Quoting.run, Quoting.next, if_neg (by rw [h c List.mem_cons_self]; decide)]
    exact ih fun d hd => h d (List.mem_cons_of_mem _ hd)

namespace Fragment

/-- What stands at the front of a text, with `after` behind it. -/
inductive Lexes (s : Scanner) (after : Text) : Fragment → Prop
  /-- A literal, up to where it ends. -/
  | literal {c : Char} {body : Text} (hc : isQuote c = true)
    (hclosed : Quoting.run s .outside (c :: body) = .outside)
    (hbody : s.literalLength (.inside c 0) (body ++ after) = body.length) :
    Lexes s after (.verbatim (c :: body))
  | placeholder : Lexes s after .placeholder
  /-- A group that a query begins in, up to the partner of its parenthesis. -/
  | subquery {inner : Text} (hi : s.Balanced inner) (ho : OpensQuery (inner ++ ')' :: after)) :
    Lexes s after (.subquery inner)
  /-- A cast, with the name of the type. -/
  | cast {type : Text} (htype : Text.reference (type ++ after) = type) :
    Lexes s after (.verbatim (':' :: ':' :: type))
  | named {name : Text} (hname : Text.reference (name ++ after) = name) :
    Lexes s after (.named (':' :: name))
  /-- A word or several with points between them. -/
  | word {c : Char} {w : Text} (hc : isNameStart c = true)
    (hw : Text.reference (c :: w ++ after) = c :: w) :
    Lexes s after (.word (c :: w) ((Text.trimStart after).head? == some '('))
  | number {c : Char} {digits : Text} (hc : c.isDigit = true)
    (hdigits : (digits ++ after).takeWhile Text.isNumberChar = digits) :
    Lexes s after (.verbatim (c :: digits))
  /-- Any other character. -/
  | symbol {c : Char} (hq : isQuote c = false) (hp : c ≠ '?') (hn : isNameStart c = false)
    (hd : c.isDigit = false)
    (hcolon : c = ':' → ∀ d ∈ after.head?, d ≠ ':' ∧ isNameStart d = false)
    (hopen : c = '(' → ∀ inner more, after = inner ++ ')' :: more → s.Balanced inner →
      ¬ OpensQuery after) : Lexes s after (.verbatim [c])

theorem Lexes.source_ne_nil {f : Fragment} (h : Lexes s after f) : f.source ≠ [] := by
  cases h <;> exact List.cons_ne_nil _ _

/-- What is taken over is a literal, or holds no quotes. -/
theorem Lexes.verbatim_cases {u : Text} (h : Lexes s after (.verbatim u)) :
    (∃ c body, u = c :: body ∧ isQuote c = true ∧ Quoting.run s .outside u = .outside ∧
      s.literalLength (.inside c 0) (body ++ after) = body.length) ∨ ∀ c ∈ u, isQuote c = false := by
  cases h with
  | literal hc hclosed hbody => exact .inl ⟨_, _, rfl, hc, hclosed, hbody⟩
  | cast htype =>
    have htame : Tame _ := htype ▸ Text.tame_reference _
    refine .inr fun c hc => ?_
    simp only [List.mem_cons] at hc
    rcases hc with rfl | rfl | hc
    · rfl
    · rfl
    · exact (htame c hc).1.1
  | number hc hdigits =>
    refine .inr fun d hd => ?_
    rcases List.mem_cons.1 hd with rfl | hd
    · exact (isPlain_and_ne_of_isDigit hc).1.1
    · rw [← hdigits] at hd
      exact (Text.isPlain_and_ne_of_isNumberChar (List.mem_takeWhile_imp hd)).1.1
  | symbol hq => exact .inr fun d hd => List.mem_singleton.1 hd ▸ hq

theorem Lexes.word_tame {w : Text} {called : Bool} (h : Lexes s after (.word w called)) :
    Tame w := by
  cases h with
  | word _ hw => exact hw ▸ Text.tame_reference _

/-- No literal is left open. -/
theorem Lexes.run_source {f : Fragment} (h : Lexes s after f) :
    Quoting.run s .outside f.source = .outside := by
  cases f with
  | verbatim u =>
    rcases h.verbatim_cases with ⟨c, body, rfl, -, hclosed, -⟩ | hquotes
    · exact hclosed
    · exact Quoting.run_of_unquoted hquotes
  | placeholder => rfl
  | word w called => exact h.word_tame.neutral.1.run
  | subquery inner =>
    cases h with
    | subquery hi => exact hi.enclosed.run
  | named u =>
    cases h with
    | named hname =>
      have htame : Tame _ := hname ▸ Text.tame_reference _
      exact htame.neutral.1.run

theorem lexes_group (h : (group s rest).source ++ more = '(' :: rest) :
    Lexes s more (group s rest) := by
  have hsymbol (h : ['('] ++ more = '(' :: rest)
      (hno : ∀ inner b, rest = inner ++ ')' :: b → s.Balanced inner → ¬ OpensQuery rest) :
      Lexes s more (.verbatim ['(']) := by
    obtain rfl : more = rest := List.cons_injective h
    exact .symbol rfl (by decide) rfl rfl (fun h => absurd h (by decide)) fun _ => hno
  simp only [group] at h ⊢
  split at h
  · rename_i hselect
    rw [if_pos hselect]
    split at h
    · rename_i close hclose
      obtain ⟨inner, b, rfl, rfl, hi⟩ := Scanner.closingParen_eq_ok.1 hclose
      have htake : (inner ++ ')' :: b).take (inner.length + 1 - 1) = inner :=
        List.take_left' (by simp)
      rw [htake] at h
      obtain rfl : more = b := by simpa [source] using h
      rw [htake]
      exact .subquery hi hselect
    · rename_i fault hclose
      refine hsymbol h fun inner b hrest hi _ => ?_
      rw [Scanner.closingParen_eq_ok.2 ⟨inner, b, hrest, rfl, hi⟩] at hclose
      cases hclose
  · rename_i hselect
    rw [if_neg hselect]
    exact hsymbol h fun _ _ _ _ => hselect

theorem lexes_colon (h : (colon rest).source ++ more = ':' :: rest) :
    Lexes s more (colon rest) := by
  have hsymbol (h : [':'] ++ more = ':' :: rest)
      (hno : ∀ d ∈ rest.head?, d ≠ ':' ∧ isNameStart d = false) :
      Lexes s more (.verbatim [':']) := by
    obtain rfl : more = rest := List.cons_injective h
    exact .symbol rfl (by decide) rfl rfl (fun _ => hno) fun h => absurd h (by decide)
  cases rest with
  | nil => exact hsymbol h nofun
  | cons d rest =>
    by_cases hd : d = ':'
    · subst hd
      have h : Text.reference rest ++ more = rest :=
        List.cons_injective (List.cons_injective h)
      exact .cast (by rw [h])
    · have hcolon : colon (d :: rest) =
          if isNameStart d then named (':' :: Text.reference (d :: rest)) else verbatim [':'] := by
        rw [colon]
        rintro rfl
        exact hd rfl
      rw [hcolon] at h ⊢
      split at h
      · rename_i hn
        rw [if_pos hn]
        have h : Text.reference (d :: rest) ++ more = d :: rest := List.cons_injective h
        exact .named (by rw [h])
      · rename_i hn
        rw [if_neg hn]
        refine hsymbol h fun e he => ?_
        obtain rfl := Option.some.inj he
        exact ⟨hd, Bool.not_eq_true _ ▸ hn⟩

end Fragment

theorem Scanner.literalLength_le (st : LiteralState) (t : Text) :
    s.literalLength st t ≤ t.length := by
  induction t generalizing st with
  | nil => exact Nat.le_refl _
  | cons c t ih =>
    simp only [literalLength]
    split
    · exact Nat.succ_le_succ (ih _)
    · exact Nat.zero_le _

namespace Fragment

theorem first_eq (s : Scanner) (c : Char) (rest : Text) : first s c rest =
    if isQuote c then verbatim (c :: rest.take (s.literalLength (.inside c 0) rest))
    else if c = '?' then placeholder
    else if c = '(' then group s rest
    else if c = ':' then colon rest
    else if isNameStart c then ofName (c :: rest)
    else if c.isDigit then verbatim (c :: rest.takeWhile Text.isNumberChar)
    else verbatim [c] := by
  simp only [first, isQuote, beq_iff_eq]
  rfl

theorem lexes_first (hf : Found s (first s c rest) (c :: rest))
    (h : (first s c rest).source ++ more = c :: rest) : Lexes s more (first s c rest) := by
  rw [first_eq] at hf h ⊢
  by_cases hq : isQuote c = true
  · rw [if_pos hq] at hf h ⊢
    have h : rest.take (s.literalLength (.inside c 0) rest) ++ more = rest :=
      List.cons_injective h
    refine .literal hq hf.wellRead.1 ?_
    rw [h, List.length_take, Nat.min_eq_left (Scanner.literalLength_le _ _)]
  clear hf
  rw [if_neg hq] at h ⊢
  by_cases hp : c = '?'
  · subst hp
    exact .placeholder
  rw [if_neg hp] at h ⊢
  by_cases ho : c = '('
  · subst ho
    exact lexes_group h
  rw [if_neg ho] at h ⊢
  by_cases hcolon : c = ':'
  · subst hcolon
    exact lexes_colon h
  rw [if_neg hcolon] at h ⊢
  by_cases hn : isNameStart c = true
  · rw [if_pos hn] at h ⊢
    have href : Text.reference (c :: rest) = c :: Text.reference rest := by
      simp [Text.reference, isNameChar_of_isNameStart hn]
    have h : Text.reference (c :: rest) ++ more = c :: rest := h
    have hdrop : (c :: rest).drop (Text.reference (c :: rest)).length = more := by
      obtain ⟨w, hw⟩ : ∃ w, Text.reference (c :: rest) = w := ⟨_, rfl⟩
      rw [hw] at h ⊢
      rw [← h, List.drop_left]
    simp only [ofName, hdrop]
    rw [href] at h ⊢
    exact .word hn (by rw [h, href])
  rw [if_neg hn] at h ⊢
  by_cases hd : c.isDigit = true
  · rw [if_pos hd] at h ⊢
    have h : rest.takeWhile Text.isNumberChar ++ more = rest := List.cons_injective h
    exact .number hd (by rw [h])
  · rw [if_neg hd]
    exact .symbol (Bool.not_eq_true _ ▸ hq) hp (Bool.not_eq_true _ ▸ hn) (Bool.not_eq_true _ ▸ hd)
      (fun h => absurd h hcolon) fun h => absurd h ho

/-- Each of the fragments is what stands at its place. -/
def AllLex (s : Scanner) : List Fragment → Prop
  | [] => True
  | f :: fs => Lexes s (fs.flatMap source) f ∧ AllLex s fs

theorem ofText_lexes (h : Quoting.run s .outside t = .outside) : AllLex s (ofText s t) := by
  refine (ofText_induction_first (P := fun t fs => fs.flatMap source = t ∧ AllLex s fs)
    ⟨rfl, trivial⟩ (fun c rest more fs hf hmore _ ih => ?_) h).2
  obtain ⟨rfl, ih⟩ := ih
  exact ⟨hmore, lexes_first hf hmore, ih⟩

end Fragment

/-! ## Words -/

namespace Text

theorem reference_cons_eq {w : Text} (h : reference (c :: t) = c :: w) :
    (isNameChar c || c == '.' && t.head?.any isNameStart) = true ∧ reference t = w := by
  simp only [reference] at h
  split at h
  · rename_i hc
    exact ⟨hc, List.cons_injective h⟩
  · cases h

theorem reference_append_eq {w : Text} (h : reference (a ++ w ++ after) = a ++ w) :
    reference (w ++ after) = w := by
  induction a with
  | nil => exact h
  | cons c a ih => exact ih (reference_cons_eq h).2

theorem isNameChar_of_mem_reference (h : c ∈ reference t) (hc : c ≠ '.') :
    isNameChar c = true := by
  induction t with
  | nil => cases h
  | cons d t ih =>
    simp only [reference] at h
    split at h
    · rename_i hd
      rcases List.mem_cons.1 h with rfl | h
      · simpa [hc] using hd
      · exact ih h
    · cases h

/-- Up to a point, a word is an identifier. -/
theorem isIdentifier_of_reference {w : Text} (hc : isNameStart c = true)
    (hw : reference (c :: w ++ after) = c :: w) (ha : a ⊆ w) (hdot : '.' ∉ a) :
    isIdentifier (c :: a) = true := by
  rw [isIdentifier, hc, Bool.true_and, List.all_eq_true]
  intro d hd
  refine isNameChar_of_mem_reference (hw.symm ▸ List.mem_cons_of_mem c (ha hd)) ?_
  rintro rfl
  exact hdot hd

/-- An identifier stands behind each point. -/
theorem reference_point {w : Text} (hw : reference ('.' :: w ++ after) = '.' :: w) :
    ∃ c v, w = c :: v ∧ isNameStart c = true := by
  obtain ⟨hhead, href⟩ := reference_cons_eq hw
  cases w with
  | cons c v => exact ⟨c, v, rfl, by simpa [isNameChar] using hhead⟩
  | nil =>
    cases after with
    | nil => cases hhead
    | cons c after =>
      have hc : isNameStart c = true := by simpa [isNameChar] using hhead
      simp [reference, isNameChar_of_isNameStart hc] at href

theorem fields_of_not_mem {sep : Char} (h : sep ∉ t) : fields sep t = [t] := by
  induction t with
  | nil => rfl
  | cons c t ih =>
    rw [List.mem_cons, not_or] at h
    rw [fields, if_neg (by simpa using Ne.symm h.1), ih h.2]

theorem fields_append {sep : Char} (h : sep ∉ a) :
    fields sep (a ++ sep :: b) = a :: fields sep b := by
  induction a with
  | nil => simp [fields]
  | cons c a ih =>
    rw [List.mem_cons, not_or] at h
    rw [List.cons_append, fields, if_neg (by simpa using Ne.symm h.1), ih h.2]

theorem intercalate_fields (sep : Char) (t : Text) : [sep].intercalate (fields sep t) = t := by
  induction t with
  | nil => rfl
  | cons d t ih =>
    obtain ⟨u, us, hu⟩ := List.exists_cons_of_ne_nil (fields_ne_nil sep t)
    rw [hu] at ih
    rw [fields, hu]
    split
    · rename_i hd
      rw [List.intercalate_cons_cons, ih, beq_iff_eq.1 hd]
      rfl
    · cases us with
      | nil =>
        rw [List.intercalate_singleton] at ih ⊢
        rw [ih]
      | cons v vs =>
        rw [List.intercalate_cons_cons] at ih ⊢
        rw [List.cons_append, List.cons_append, ih]

theorem fields_intercalate {sep : Char} {ts : List Text} (hne : ts ≠ []) (h : ∀ t ∈ ts, sep ∉ t) :
    fields sep ([sep].intercalate ts) = ts := by
  induction ts with
  | nil => exact absurd rfl hne
  | cons t ts ih =>
    obtain ⟨ht, hts⟩ := List.forall_mem_cons.1 h
    cases ts with
    | nil => rw [List.intercalate_singleton, fields_of_not_mem ht]
    | cons u us =>
      rw [List.intercalate_cons_cons, List.append_assoc, List.singleton_append, fields_append ht,
        ih (List.cons_ne_nil u us) hts]

theorem point_not_mem (h : t.isIdentifier = true) : '.' ∉ t := fun hmem => by
  cases List.all_eq_true.1 (all_isNameChar_of_isIdentifier h) '.' hmem

/-- A path is identifiers with points between them. -/
theorem path?_eq_some {names : List String} : t.path? = some names ↔ names ≠ [] ∧
    (∀ n ∈ names, isIdentifier n.toList = true) ∧
      t = ['.'].intercalate (names.map String.toList) := by
  constructor
  · intro h
    obtain ⟨hne, hnames, -⟩ := isIdentifier_of_path? h
    refine ⟨hne, hnames, ?_⟩
    simp only [path?] at h
    split at h
    · cases h
      rw [List.map_map, show String.toList ∘ String.ofList = id from
        funext fun _ => String.toList_ofList, List.map_id, intercalate_fields]
    · cases h
  · rintro ⟨hne, hnames, rfl⟩
    have hfields : fields '.' (['.'].intercalate (names.map String.toList)) =
        names.map String.toList := by
      refine fields_intercalate (fun h => hne (List.map_eq_nil_iff.1 h)) fun t ht => ?_
      obtain ⟨n, hn, rfl⟩ := List.mem_map.1 ht
      exact point_not_mem (hnames n hn)
    have hall : (names.map String.toList).all isIdentifier = true := by
      simpa [List.all_eq_true] using hnames
    rw [path?, hfields, if_pos hall, List.map_map, show String.ofList ∘ String.toList = id from
      funext fun _ => String.ofList_toList, List.map_id]

/-- A word with one point is a path of two names. -/
theorem path?_of_reference {w field : Text} (hc : isNameStart c = true)
    (hw : reference (c :: w ++ after) = c :: w) (ha : '.' ∉ c :: a)
    (hfield : '.' ∉ field) (he : c :: w = c :: a ++ '.' :: field) :
    path? (c :: w) = some [String.ofList (c :: a), String.ofList field] := by
  have hpoint : reference ('.' :: field ++ after) = '.' :: field := by
    rw [he] at hw
    exact reference_append_eq (a := c :: a) hw
  have hleft : isIdentifier (c :: a) = true :=
    isIdentifier_of_reference hc hw (by rw [List.cons_injective he]; exact List.subset_append_left _ _)
      fun h => ha (List.mem_cons_of_mem _ h)
  obtain ⟨d, v, rfl, hd⟩ := reference_point hpoint
  have hright : isIdentifier (d :: v) = true :=
    isIdentifier_of_reference hd (reference_append_eq (a := ['.']) hpoint) (List.Subset.refl _)
      fun h => hfield (List.mem_cons_of_mem _ h)
  rw [path?, he, fields_append ha, fields_of_not_mem hfield]
  simp [hleft, hright]

end Text

/-! ## Literals -/

namespace LiteralState

/-- The state when the literal had been opened at another position. -/
def relabel (n : Nat) : LiteralState → LiteralState
  | outside => outside
  | inside q _ => inside q n
  | escaped q _ => escaped q n
  | closing q _ => closing q n

theorem next_relabel (n : Nat) (st : LiteralState) :
    (st.relabel n).next s c = (st.next s c).map (relabel n) := by
  cases st with
  | outside | escaped => rfl
  | inside q k =>
    simp only [relabel, next]
    split
    · rfl
    · split <;> rfl
  | closing q k =>
    simp only [relabel, next]
    split <;> rfl

/-- The text does not begin with a character of a literal that was opened before. -/
def Free (s : Scanner) (st : LiteralState) (t : Text) : Prop := ∀ c ∈ t.head?, st.next s c = none

theorem Free.outside (t : Text) : Free s .outside t := fun _ _ => rfl

/-- Only a quote goes on with a literal that is closed. -/
theorem next_eq_none (hp : st.Proper) (hst : st.quoting = .outside) (hc : isQuote c = false) :
    st.next s c = none := by
  cases hn : st.next s c with
  | none => rfl
  | some st' => exact absurd ((next_some hp hn).2.2 hst) (by rw [hc]; decide)

end LiteralState

namespace Scanner

theorem literalLength_relabel (n : Nat) (st : LiteralState) (t : Text) :
    s.literalLength (st.relabel n) t = s.literalLength st t := by
  induction t generalizing st with
  | nil => rfl
  | cons c t ih =>
    simp only [literalLength, LiteralState.next_relabel]
    cases st.next s c with
    | none => rfl
    | some st' => exact congrArg (· + 1) (ih st')

/-- Where a literal ends does not depend on where it stands. -/
theorem literalEnd_append (a : Text) (c : Char) (rest : Text) :
    s.literalEnd (a ++ c :: rest) a.length =
      a.length + 1 + s.literalLength (.inside c 0) rest := by
  rw [literalEnd, List.drop_left]
  exact congrArg (a.length + 1 + ·) (literalLength_relabel a.length (.inside c 0) rest)

/-- A scan gets past the literal that is open without a mark. -/
theorem scanFrom_literalLength (pos : Nat) (st : LiteralState) (t : Text) : ∃ st' : LiteralState,
    st'.Free s (t.drop (s.literalLength st t)) ∧ s.scanFrom st opens pos t =
      s.scanFrom st' opens (pos + s.literalLength st t) (t.drop (s.literalLength st t)) := by
  induction t generalizing st pos with
  | nil => exact ⟨st, nofun, rfl⟩
  | cons c t ih =>
    cases hn : st.next s c with
    | none =>
      simp only [literalLength, hn]
      exact ⟨st, fun d hd => Option.some.inj hd ▸ hn, rfl⟩
    | some st' =>
      simp only [literalLength, hn, List.drop_succ_cons]
      obtain ⟨st'', hfree, h⟩ := ih (pos + 1) st'
      refine ⟨st'', hfree, ?_⟩
      rw [scanFrom_literal hn, h, Nat.add_assoc, Nat.add_comm 1]

/-- A literal that a text closes ends in this text, unless a quote follows. -/
theorem literalLength_append_le (hp : st.Proper) (ha : st.quoting.run s a = .outside)
    (hc : isQuote c = false) : s.literalLength st (a ++ c :: b) ≤ a.length := by
  induction a generalizing st with
  | nil =>
    simp only [List.nil_append, literalLength, LiteralState.next_eq_none hp ha hc]
    exact Nat.le_refl _
  | cons d a ih =>
    cases hn : st.next s d with
    | none =>
      simp only [List.cons_append, literalLength, hn]
      exact Nat.zero_le _
    | some st' =>
      obtain ⟨hp', hq, -⟩ := LiteralState.next_some hp hn
      simp only [List.cons_append, literalLength, hn, List.length_cons]
      exact Nat.succ_le_succ (ih hp' (by rw [hq]; exact ha))

/-! ## Marks of quotes -/

/-- A character that is no quote and belongs to no literal is marked, but not as a quote. -/
theorem quote_mem_cons (hc : isQuote c = false) (hn : st.next s c = none)
    (hm : m ∈ (s.scanFrom st opens pos (c :: t)).marks) (hq : isQuote m.char = true) :
    ∃ opens', m ∈ (s.scanFrom .outside opens' (pos + 1) t).marks := by
  have hne {top : Bool} : m ≠ ⟨pos, c, top⟩ := by
    rintro rfl
    exact Bool.noConfusion (hq.symm.trans hc)
  rcases isQuote_or_paren_or_isPlain c with h | rfl | rfl | h
  · exact Bool.noConfusion (h.symm.trans hc)
  · rw [scanFrom_open hn] at hm
    exact ⟨_, (List.mem_cons.1 hm).resolve_left hne⟩
  · cases opens with
    | nil =>
      rw [scanFrom_unexpected hn] at hm
      cases hm
    | cons n opens =>
      rw [scanFrom_close hn] at hm
      exact ⟨_, (List.mem_cons.1 hm).resolve_left hne⟩
  · rw [scanFrom_plain hn h] at hm
    exact ⟨_, (List.mem_cons.1 hm).resolve_left hne⟩

/-- No quote is marked in a text without quotes. -/
theorem quote_mem_append (ha : ∀ c ∈ a, isQuote c = false) (hne : a ≠ [])
    (hfree : st.Free s (a ++ t)) (hm : m ∈ (s.scanFrom st opens pos (a ++ t)).marks)
    (hq : isQuote m.char = true) :
    ∃ opens', m ∈ (s.scanFrom .outside opens' (pos + a.length) t).marks := by
  induction a generalizing st opens pos with
  | nil => exact absurd rfl hne
  | cons c a ih =>
    obtain ⟨opens', hm⟩ := quote_mem_cons (ha c List.mem_cons_self) (hfree c rfl) hm hq
    cases a with
    | nil => exact ⟨opens', hm⟩
    | cons d a =>
      have hrest := ih (fun e he => ha e (List.mem_cons_of_mem _ he)) (List.cons_ne_nil d a)
        (.outside _) hm
      rwa [Nat.add_assoc, Nat.add_comm 1, ← List.length_cons (a := c)] at hrest

/-- A literal that opens in a text without open literals ends in it, unless a quote follows. -/
theorem quote_mem_scanFrom (hp : st.Proper) (ha : st.quoting.run s a = .outside)
    (hc : isQuote c = false) (hm : m ∈ (s.scanFrom st opens pos (a ++ c :: b)).marks)
    (hq : isQuote m.char = true) :
    (∃ a₁ a₂, a = a₁ ++ m.char :: a₂ ∧ m.pos = pos + a₁.length ∧
      s.literalLength (.inside m.char 0) (a₂ ++ c :: b) ≤ a₂.length) ∨
    ∃ st' opens', st'.next s c = none ∧
      m ∈ (s.scanFrom st' opens' (pos + a.length) (c :: b)).marks := by
  induction a generalizing st opens pos with
  | nil => exact .inr ⟨st, opens, LiteralState.next_eq_none hp ha hc, hm⟩
  | cons d a ih =>
    have hcons {st' : LiteralState} {opens' : List Nat} (hp' : st'.Proper)
        (hst : st'.quoting = st.quoting.next s d)
        (hm : m ∈ (s.scanFrom st' opens' (pos + 1) (a ++ c :: b)).marks) :
        (∃ a₁ a₂, d :: a = a₁ ++ m.char :: a₂ ∧ m.pos = pos + a₁.length ∧
          s.literalLength (.inside m.char 0) (a₂ ++ c :: b) ≤ a₂.length) ∨
        ∃ st' opens', st'.next s c = none ∧
          m ∈ (s.scanFrom st' opens' (pos + (d :: a).length) (c :: b)).marks := by
      rcases ih hp' (by rw [hst]; exact ha) hm with ⟨a₁, a₂, rfl, hpos, hle⟩ | ⟨st'', opens'', h⟩
      · exact .inl ⟨d :: a₁, a₂, rfl, by rw [hpos, List.length_cons]; omega, hle⟩
      · refine .inr ⟨st'', opens'', ?_⟩
        rwa [List.length_cons, Nat.add_comm a.length, ← Nat.add_assoc]
    rw [List.cons_append] at hm
    cases s.step (a ++ c :: b) opens pos d hp with
    | literal hp' _ _ hn hscan =>
      rw [hscan] at hm
      exact hcons hp' (next_quoting hn) hm
    | @mark st' opens' top hp' hout hplain hopen hclose hn hscan =>
      rw [hscan] at hm
      rcases List.mem_cons.1 hm with rfl | hm
      · -- the literal that opens here is closed in the rest
        refine .inl ⟨[], a, rfl, rfl, ?_⟩
        have hrun : Quoting.run s (.inside d) a = .outside := by
          have hd : isQuote d = true := hq
          rw [hout] at ha
          simpa only [Quoting.run, Quoting.next, hd, if_true] using ha
        have hd : LiteralState.Proper (.inside d 0) := hq
        exact literalLength_append_le hd hrun hc
      · exact hcons hp' (next_quoting hn) hm
    | unexpected _ _ _ hscan =>
      rw [hscan] at hm
      cases hm

end Scanner
end ObjectQuery
