import ObjectQuery.Proofs.Text.Conjuncts
import ObjectQuery.Sql.Printer

/-! # Quoted names and literals

What is written between quotes stays between them: the quotes inside are doubled, and a backslash
never stands before one. A scan therefore gets past a name or a value of the schema with nothing
open, and finds no placeholder in it; and whatever a value is, it is one word.

* `Scanner.Contained`: texts that stay inside a literal;
* `Style.neutral_identifier`, `Style.neutral_column`: names of name characters;
* `Dialect.neutral_literal`: values;
* `Style.single_column`, `Dialect.single_literal`: both as single words. -/

namespace ObjectQuery

variable {s : Scanner} {t a b : Text} {q c : Char}

/-! ## Texts inside literals -/

namespace Scanner

/-- A text that begins and ends inside a literal with the given quote, and marks no placeholder; no
blank of it stands outside. -/
structure Contained (s : Scanner) (q : Char) (t : Text) : Prop where
  read : ∀ d, s.read ⟨.inside q, d⟩ t = some ⟨.inside q, d⟩
  questions : ∀ pos, s.questionsFrom (.inside q) pos t = []
  unbroken : s.Unbroken ⟨.inside q, 0⟩ t

namespace Contained

theorem nil : s.Contained q [] := ⟨fun _ => rfl, fun _ => rfl, unbroken_of_forall nofun⟩

theorem next_inside (s : Scanner) (q : Char) (d : Nat) (c : Char) :
    Reading.next s ⟨.inside q, d⟩ c = some ⟨Quoting.next s c (.inside q), d⟩ := rfl

theorem run (h : s.Contained q t) : Quoting.run s (.inside q) t = .inside q :=
  (read_quoting (h.read 0)).symm

theorem append (ha : s.Contained q a) (hb : s.Contained q b) : s.Contained q (a ++ b) := by
  refine ⟨fun d => read_append_iff.2 ⟨_, ha.read d, hb.read d⟩, fun pos => ?_,
    ha.unbroken.append (ha.read 0) hb.unbroken⟩
  rw [questionsFrom_append, ha.questions, ha.run, hb.questions]; rfl

theorem flatMap {α : Type} {f : α → Text} {xs : List α} (h : ∀ x ∈ xs, s.Contained q (f x)) :
    s.Contained q (xs.flatMap f) := by
  induction xs with
  | nil => exact nil
  | cons x xs ih =>
    obtain ⟨hx, hxs⟩ := List.forall_mem_cons.1 h
    exact hx.append (ih hxs)

/-- A character that neither ends the literal nor escapes the next one. -/
theorem singleton (hq : c ≠ q) (hb : s.backslashEscapes = true → c ≠ '\\') :
    s.Contained q [c] := by
  have hnext : Quoting.next s c (.inside q) = .inside q := by
    have hesc : (s.backslashEscapes && c == '\\') = false := by
      cases hs : s.backslashEscapes with
      | false => rfl
      | true => simpa using hb hs
    simp [Quoting.next, hesc, hq]
  refine ⟨fun d => ?_, fun pos => ?_, unbroken_singleton (by simp)⟩
  · simp [read_cons, Reading.next, hnext]
  · simp [questionsFrom]

/-- A backslash and a character after it, be it escaped or not. -/
theorem escape (hq : c ≠ q) (hne : q ≠ '\\') : s.Contained q ['\\', c] := by
  cases hs : s.backslashEscapes with
  | true =>
    have hbackslash : s.read ⟨.inside q, 0⟩ ['\\'] = some ⟨.escaped q, 0⟩ := by
      simp [read_cons, Reading.next, Quoting.next, hs]
    have hfirst : s.Unbroken ⟨.inside q, 0⟩ ['\\'] := unbroken_singleton (by simp)
    have hsecond : s.Unbroken ⟨.escaped q, 0⟩ [c] := unbroken_singleton (by simp)
    refine ⟨fun d => ?_, fun pos => ?_, hfirst.append hbackslash hsecond⟩
    · simp [read_cons, Reading.next, Quoting.next, hs]
    · simp [questionsFrom, Quoting.next, hs]
  | false =>
    have hoff {x : Char} : s.backslashEscapes = true → x ≠ '\\' := by
      rw [hs]
      intro h
      cases h
    exact (singleton hne.symm hoff).append (singleton hq hoff)

/-- A doubled quote ends the literal and begins another one. -/
theorem doubled_quote (hq : isQuote q = true) : s.Contained q [q, q] := by
  have hb : q ≠ '\\' := by rintro rfl; revert hq; decide
  have hr : q ≠ '?' := by rintro rfl; revert hq; decide
  have hclose : Quoting.next s q (.inside q) = .outside := by simp [Quoting.next, hb]
  have hblank : isBlank q = false := isBlank_of_isQuote hq
  refine ⟨fun d => ?_, fun pos => ?_, unbroken_of_forall (by simp [hblank])⟩
  · rw [read_cons, next_inside, Option.bind_some, hclose, read_cons, next_quote hq]
    rfl
  · simp [questionsFrom, hr, Quoting.next]

/-- Between its quotes the text is one word. -/
theorem unbroken_quoted (hq : isQuote q = true) (h : s.Contained q t) :
    s.Unbroken .start (q :: t ++ [q]) := by
  have hquote {r : Reading} : s.Unbroken r [q] :=
    unbroken_of_forall (List.forall_mem_singleton.2 (isBlank_of_isQuote hq))
  have hopen : s.read .start [q] = some ⟨.inside q, 0⟩ := by
    rw [read_cons, Reading.start, next_quote hq]
    rfl
  exact (hquote.append hopen h.unbroken).append (read_append_iff.2 ⟨_, hopen, h.read 0⟩) hquote

/-- Between its quotes the text is neutral. -/
theorem neutral (hq : isQuote q = true) (h : s.Contained q t) : s.Neutral (q :: t ++ [q]) := by
  have hb : q ≠ '\\' := by rintro rfl; revert hq; decide
  have hr : q ≠ '?' := by rintro rfl; revert hq; decide
  have hopen : Quoting.next s q .outside = .inside q := by simp [Quoting.next, hq]
  have hclose : Quoting.next s q (.inside q) = .outside := by simp [Quoting.next, hb]
  constructor
  · rw [Balanced, List.cons_append, read_cons, Reading.start, next_quote hq, Option.bind_some,
      read_append, h.read, Option.bind_some, read_cons, next_inside, hclose]
    rfl
  · have : s.questions (q :: t ++ [q]) = [] := by
      rw [Scanner.questions, List.cons_append, questionsFrom, if_neg fun h => hr h.2, hopen,
        questionsFrom_append, h.questions, h.run]
      simp [questionsFrom]
    rw [count, this]; rfl

end Contained
end Scanner

open Scanner

/-! ## Names -/

theorem isNameChar_ne (h : isNameChar c = true) (hq : isNameChar q = false) : c ≠ q := by
  rintro rfl
  rw [h] at hq
  cases hq

/-- A quoted name of name characters. -/
theorem Dialect.neutral_quoteIdentifier {name : String} (d : Dialect)
    (h : ∀ c ∈ name.toList, isNameChar c = true) : s.Neutral (d.quoteIdentifier name) := by
  have hclose : isNameChar d.quotes.2 = false := by cases d <;> decide
  have hdoubled : doubled d.quotes.2 name.toList = name.toList :=
    doubled_eq_self fun hc => isNameChar_ne (h _ hc) hclose rfl
  have htame : Tame name.toList := tame_of_isNameChar h
  rw [quoteIdentifier, hdoubled]
  cases d with
  | pgsql | sqlite | oracle =>
    refine Contained.neutral (q := '"') (by decide) ?_
    have hone : ∀ c ∈ name.toList, s.Contained '"' [c] := fun c hc =>
      .singleton (isNameChar_ne (h c hc) (by decide)) fun _ => isNameChar_ne (h c hc) (by decide)
    simpa using Contained.flatMap hone
  | mysql | mssql =>
    refine Tame.neutral (.cons (by decide) (htame.append ?_))
    decide

theorem Sql.Style.neutral_identifier {name : String} (style : Style)
    (h : ∀ c ∈ name.toList, isNameChar c = true) : s.Neutral (style.identifier name) := by
  rw [identifier]
  split
  · exact style.dialect.neutral_quoteIdentifier h
  · exact (tame_of_isNameChar h).neutral

theorem Dialect.isBlank_of_mem_quoteIdentifier {name : String} (d : Dialect)
    (h : ∀ c ∈ name.toList, isNameChar c = true) : ∀ c ∈ d.quoteIdentifier name, isBlank c = false := by
  intro c hc
  rw [quoteIdentifier, List.cons_append, List.mem_cons, List.mem_append, List.mem_singleton,
    doubled, List.mem_flatMap] at hc
  rcases hc with rfl | ⟨e, he, hc⟩ | rfl
  · cases d <;> rfl
  · have hce : c = e := by
      split at hc
      · simpa using hc
      · exact List.mem_singleton.1 hc
    exact isBlank_of_isNameChar (h c (hce ▸ he))
  · cases d <;> rfl

theorem Sql.Style.isBlank_of_mem_identifier {name : String} (style : Style)
    (h : ∀ c ∈ name.toList, isNameChar c = true) : ∀ c ∈ style.identifier name, isBlank c = false := by
  intro c hc
  rw [identifier] at hc
  split at hc
  · exact style.dialect.isBlank_of_mem_quoteIdentifier h c hc
  · exact isBlank_of_isNameChar (h c hc)

theorem Sql.Style.neutral_column {qualifier name : String} (style : Style)
    (hq : ∀ c ∈ qualifier.toList, isNameChar c = true)
    (h : ∀ c ∈ name.toList, isNameChar c = true) : s.Neutral (style.column qualifier name) := by
  have hpoint : Tame ['.'] := by decide
  exact (style.neutral_identifier hq).append (hpoint.neutral.append (style.neutral_identifier h))

/-- A column is one word; the point in it tells it from a keyword. -/
theorem Sql.Style.single_column {qualifier name : String} (style : Style)
    (hq : ∀ c ∈ qualifier.toList, isNameChar c = true)
    (h : ∀ c ∈ name.toList, isNameChar c = true) : s.Single (style.column qualifier name) := by
  have hpoint : '.' ∈ style.column qualifier name := List.mem_append_right _ List.mem_cons_self
  refine Unbroken.single (unbroken_of_forall fun c hc => ?_) (style.neutral_column hq h).1 hpoint
    (by decide)
  rw [column, List.mem_append, List.mem_cons] at hc
  rcases hc with hc | rfl | hc
  · exact style.isBlank_of_mem_identifier hq c hc
  · rfl
  · exact style.isBlank_of_mem_identifier h c hc

/-! ## Numbers -/

/-- A character of the notation of a number. -/
def isNumeric (c : Char) : Bool := c.isDigit || ['-', '+', '.', 'e'].contains c

/-- All characters of the text belong to the notation of a number. -/
def Numeric (t : Text) : Prop := ∀ c ∈ t, isNumeric c = true

instance (t : Text) : Decidable (Numeric t) := List.decidableBAll (fun c => isNumeric c = true) t

namespace Numeric

theorem nil : Numeric [] := nofun

theorem append (ha : Numeric a) (hb : Numeric b) : Numeric (a ++ b) := fun c hc =>
  (List.mem_append.1 hc).elim (ha c) (hb c)

theorem cons (hc : isNumeric c = true) (h : Numeric t) : Numeric (c :: t) :=
  List.forall_mem_cons.2 ⟨hc, h⟩

theorem of_isDigit (h : ∀ c ∈ t, c.isDigit = true) : Numeric t := fun c hc => by
  rw [isNumeric, h c hc]; rfl

theorem tame (h : Numeric t) : Tame t := fun c hc =>
  isPlain_and_ne_of_forall (h c hc) (by decide)

end Numeric

theorem isBlank_of_isNumeric (h : isNumeric c = true) : isBlank c = false := by
  rw [isNumeric, Bool.or_eq_true] at h
  rcases h with h | h
  · exact isBlank_of_isNameChar (isNameChar_of_isDigit h)
  · simp only [List.contains_eq_mem, decide_eq_true_eq, List.mem_cons, List.not_mem_nil,
      or_false] at h
    rcases h with rfl | rfl | rfl | rfl <;> rfl

theorem toLower_of_isNumeric (h : isNumeric c = true) :
    c.toLower ∉ ['a', 'n', 'd', 'o', 'r'] := by
  rw [isNumeric, Bool.or_eq_true] at h
  rcases h with h | h
  · have hlower : c.toLower = c := by
      simp only [Char.isDigit, Bool.and_eq_true, decide_eq_true_eq, ge_iff_le] at h
      rw [Char.toLower, dif_neg]
      grind
    rw [hlower]
    intro hmem
    simp only [List.mem_cons, List.not_mem_nil, or_false] at hmem
    rcases hmem with rfl | rfl | rfl | rfl | rfl <;> cases h
  · simp only [List.contains_eq_mem, decide_eq_true_eq, List.mem_cons, List.not_mem_nil,
      or_false] at h
    rcases h with rfl | rfl | rfl | rfl <;> decide

/-- A number is one word, and no keyword. -/
theorem Numeric.single (h : Numeric t) (hne : t ≠ []) : s.Single t := by
  obtain ⟨c, hc⟩ := List.exists_mem_of_ne_nil t hne
  have hunbroken : s.Unbroken .start t :=
    unbroken_of_forall fun c hc => isBlank_of_isNumeric (h c hc)
  exact hunbroken.single h.tame.neutral.1 hc (toLower_of_isNumeric (h c hc))

theorem numeric_toDigits (n : Nat) : Numeric (Nat.toDigits 10 n) :=
  .of_isDigit fun _ hc => Nat.isDigit_of_mem_toDigits (by decide) (by decide) hc

theorem numeric_toString (n : Nat) : Numeric (toString n).toList := by
  rw [Nat.toString_eq_repr, Nat.toList_repr]
  exact numeric_toDigits n

theorem numeric_int (n : Int) : Numeric (toString n).toList := by
  cases n with
  | ofNat n => exact numeric_toString n
  | negSucc n =>
    show Numeric ("-" ++ toString (n + 1)).toList
    rw [String.toList_append]
    exact .append (by decide) (numeric_toString _)

theorem Decimal.numeric_exponentText (e : Int) : Numeric (exponentText e) := by
  refine .cons ?_ (numeric_toString _)
  split <;> decide

theorem Decimal.numeric_render (d : Decimal) : Numeric d.render.toList := by
  have hdigits := numeric_toDigits d.digits
  have hzeros (n : Nat) : Numeric (List.replicate n '0') := fun c hc => by
    rw [List.eq_of_mem_replicate hc]; rfl
  have htake (n : Nat) : Numeric ((Nat.toDigits 10 d.digits).take n) := fun c hc =>
    hdigits c (List.mem_of_mem_take hc)
  have hdrop (n : Nat) : Numeric ((Nat.toDigits 10 d.digits).drop n) := fun c hc =>
    hdigits c (List.mem_of_mem_drop hc)
  simp only [render, body, String.toList_append, String.toList_ofList]
  refine .append (by split <;> decide) ?_
  split
  · decide
  · split
    · exact (hdigits.append (hzeros _)).append (by decide)
    · split
      · exact (htake _).append (.cons (by decide) (hdrop _))
      · split
        · exact .cons (by decide) (.cons (by decide) ((hzeros _).append hdigits))
        · refine .append ?_ (.cons (by decide) (Decimal.numeric_exponentText _))
          split
          · rename_i heq
            rw [heq] at hdigits
            obtain ⟨h1, h2⟩ := List.forall_mem_cons.1 hdigits
            exact .cons h1 (.cons (by decide) h2)
          · exact hdigits

theorem Decimal.toList_render_ne_nil (d : Decimal) : d.render.toList ≠ [] := by
  rw [render, String.toList_append, String.toList_ofList]
  refine List.append_ne_nil_of_right_ne_nil _ ?_
  rw [body]
  split
  · exact nofun
  · split
    · exact List.append_ne_nil_of_right_ne_nil _ nofun
    · split
      · exact List.append_ne_nil_of_right_ne_nil _ nofun
      · split
        · exact nofun
        · exact List.append_ne_nil_of_right_ne_nil _ nofun

theorem toList_toString_int_ne_nil (n : Int) : (toString n).toList ≠ [] := by
  cases n with
  | ofNat n =>
    show (toString n).toList ≠ []
    rw [Nat.toString_eq_repr, Nat.toList_repr]
    exact Nat.toDigits_ne_nil
  | negSucc n =>
    show ("-" ++ toString (n + 1)).toList ≠ []
    rw [String.toList_append]
    exact nofun

/-! ## Values -/

/-- The text may be written between single quotes, with the quotes in it doubled. -/
def Scanner.Quotable (s : Scanner) (t : Text) : Prop := s.Contained '\'' (doubled '\'' t)

namespace Scanner.Quotable

theorem nil : s.Quotable [] := Contained.nil

theorem append (ha : s.Quotable a) (hb : s.Quotable b) : s.Quotable (a ++ b) := by
  rw [Quotable, doubled_append]
  exact Contained.append ha hb

theorem flatMap {α : Type} {f : α → Text} {xs : List α} (h : ∀ x ∈ xs, s.Quotable (f x)) :
    s.Quotable (xs.flatMap f) := by
  induction xs with
  | nil => exact nil
  | cons x xs ih =>
    obtain ⟨hx, hxs⟩ := List.forall_mem_cons.1 h
    exact hx.append (ih hxs)

/-- Without backslashes any text is quotable, and any text at all where they escape nothing. -/
theorem of_not_mem (h : s.backslashEscapes = true → '\\' ∉ t) : s.Quotable t := by
  refine Contained.flatMap fun c hc => ?_
  split
  · rename_i hq
    rw [beq_iff_eq.1 hq]
    exact .doubled_quote (by decide)
  · rename_i hq
    refine .singleton (by simpa using hq) ?_
    rintro hs rfl
    exact h hs hc

theorem escape (hc : c ≠ '\'') (h : s.Quotable t) : s.Quotable ('\\' :: c :: t) := by
  have hpair : doubled '\'' ['\\', c] = ['\\', c] :=
    doubled_eq_self (by simp [Ne.symm hc])
  refine append (a := ['\\', c]) ?_ h
  rw [Quotable, hpair]
  exact .escape hc (by decide)

theorem neutral (h : s.Quotable t) : s.Neutral (Dialect.quoteLiteral t) :=
  Contained.neutral (by decide) h

theorem single (h : s.Quotable t) : s.Single (Dialect.quoteLiteral t) :=
  (Contained.unbroken_quoted (by decide) h).single h.neutral.1 List.mem_cons_self (by decide)

end Scanner.Quotable

theorem Numeric.quotable (h : Numeric t) : s.Quotable t := .of_not_mem fun _ hc => by
  have := h _ hc
  revert this; decide

theorem quotable_escapeChar (s : Scanner) (c : Char) : s.Quotable (escapeChar c) := by
  have hdigit : ∀ n < 16, Nat.digitChar n ≠ '\\' := by decide
  unfold escapeChar
  split
  · exact .escape (by decide) .nil
  split
  · exact .escape (by decide) .nil
  split
  · exact .escape (by decide) .nil
  split
  · exact .escape (by decide) .nil
  split
  · exact .escape (by decide) .nil
  split
  · exact .escape (by decide) .nil
  split
  · exact .escape (by decide) .nil
  split
  · rename_i hlow
    have h1 := hdigit (c.toNat / 16) (by omega)
    have h2 := hdigit (c.toNat % 16) (by omega)
    exact .escape (by decide) (.of_not_mem fun _ => by simp [h1.symm, h2.symm])
  · rename_i hb _ _ _ _ _ _
    refine .of_not_mem fun _ hc => hb ?_
    rw [← List.mem_singleton.1 hc]; rfl

theorem quotable_quoteString (s : Scanner) (u : String) : s.Quotable (quoteString u).toList := by
  have hquote : s.Quotable ['"'] := .of_not_mem fun _ => by decide
  rw [quoteString, String.toList_ofList]
  exact (hquote.append (.flatMap fun c _ => quotable_escapeChar s c)).append hquote

mutual

theorem quotable_render (s : Scanner) : (v : Value) → s.Quotable v.render.toList
  | .null => .of_not_mem fun _ => by decide
  | .bool b => .of_not_mem fun _ => by cases b <;> decide
  | .int n => (numeric_int n).quotable
  | .decimal d => d.numeric_render.quotable
  | .string u => quotable_quoteString s u
  | .array items => by
    rw [Value.render, String.toList_append, String.toList_append]
    exact ((Scanner.Quotable.of_not_mem fun _ => by decide).append
      (quotable_renderItems s items)).append (.of_not_mem fun _ => by decide)
  | .object fields => by
    rw [Value.render, String.toList_append, String.toList_append]
    exact ((Scanner.Quotable.of_not_mem fun _ => by decide).append
      (quotable_renderFields s fields)).append (.of_not_mem fun _ => by decide)

theorem quotable_renderItems (s : Scanner) :
    (vs : List Value) → s.Quotable (Value.renderItems vs).toList
  | [] => .nil
  | [v] => quotable_render s v
  | v :: w :: vs => by
    simp only [Value.renderItems, String.toList_append]
    exact ((quotable_render s v).append (.of_not_mem fun _ => by decide)).append
      (quotable_renderItems s (w :: vs))

theorem quotable_renderFields (s : Scanner) :
    (fs : List (String × Value)) → s.Quotable (Value.renderFields fs).toList
  | [] => .nil
  | [(n, v)] => by
    rw [Value.renderFields, String.toList_append, String.toList_append]
    exact ((quotable_quoteString s n).append (.of_not_mem fun _ => by decide)).append
      (quotable_render s v)
  | (n, v) :: f :: fs => by
    simp only [Value.renderFields, String.toList_append]
    exact ((((quotable_quoteString s n).append (.of_not_mem fun _ => by decide)).append
      (quotable_render s v)).append (.of_not_mem fun _ => by decide)).append
      (quotable_renderFields s (f :: fs))

end

/-- A value is neutral, unless it is a string with a backslash that escapes what follows it. -/
theorem Dialect.neutral_literal {v : Value} (d : Dialect)
    (h : ∀ u, v = .string u → s.backslashEscapes = true → '\\' ∉ u.toList) :
    s.Neutral (d.literal v) := by
  cases v with
  | null =>
    have hnull : Tame "NULL".toList := by decide
    exact hnull.neutral
  | bool b =>
    refine Tame.neutral ?_
    cases d <;> cases b <;> decide
  | int n => exact (numeric_int n).tame.neutral
  | decimal x => exact x.numeric_render.tame.neutral
  | string u => exact (Quotable.of_not_mem (h u rfl)).neutral
  | array items => exact (quotable_render s (.array items)).neutral
  | object fields => exact (quotable_render s (.object fields)).neutral

/-- So a value is one word, whatever characters it has. -/
theorem Dialect.single_literal {v : Value} (d : Dialect)
    (h : ∀ u, v = .string u → s.backslashEscapes = true → '\\' ∉ u.toList) :
    s.Single (d.literal v) := by
  have hword {w : Text} (hw : w.all isNameChar = true)
      (hne : (w.any fun c => !(['a', 'n', 'd', 'o', 'r'].contains c.toLower)) = true) :
      s.Single w := by
    obtain ⟨c, hc, hne⟩ := List.any_eq_true.1 hne
    have hw := List.all_eq_true.1 hw
    have hunbroken : s.Unbroken .start w :=
      unbroken_of_forall fun c hc => isBlank_of_isNameChar (hw c hc)
    exact hunbroken.single (tame_of_isNameChar hw).neutral.1 hc (by simpa using hne)
  cases v with
  | null =>
    show s.Single "NULL".toList
    exact hword rfl rfl
  | bool b => cases d <;> cases b <;> exact hword rfl rfl
  | int n => exact (numeric_int n).single (toList_toString_int_ne_nil n)
  | decimal x => exact x.numeric_render.single x.toList_render_ne_nil
  | string u => exact (Quotable.of_not_mem (h u rfl)).single
  | array items => exact (quotable_render s (.array items)).single
  | object fields => exact (quotable_render s (.object fields)).single

end ObjectQuery
