import ObjectQuery.Config.Basic
import ObjectQuery.Proofs.Text.Visits
import ObjectQuery.Sql.Dialect

/-! # Literals that are read back

A string, a list or an object is written between quotes, and only quotes are doubled. A scanner that
knows no other escape reads the literal back as the text that was written. A scanner for which a
backslash is an escape reads something else, or no end of the literal at all, as soon as there is a
backslash in the text.

* `Scanner.meaning`: what stands between the quotes of a literal, with the escapes undone;
* `Scanner.ReadsBack`: the text is one literal, with the given meaning;
* `Dialect.literal_readsBack_iff`: the values that are read back. -/

namespace ObjectQuery

variable {s : Scanner} {t a b rest body : Text} {q c : Char} {d : Dialect} {v : Value}

namespace Scanner

/-- What stands between the quotes `q` of a literal, with the escapes undone: a quote for two, and
for a backslash that escapes a character, this character. -/
def meaning (s : Scanner) (q : Char) : Text → Text
  | [] => []
  | [c] => if s.backslashEscapes && c == '\\' then [] else [c]
  | c :: e :: t =>
    if s.backslashEscapes && c == '\\' then e :: meaning s q t
    else if c == q && e == q then q :: meaning s q t
    else c :: meaning s q (e :: t)

/-- The text is one literal between quotes `q`, and stands for `value`. -/
structure ReadsBack (s : Scanner) (q : Char) (t value : Text) : Prop where
  quote : isQuote q = true
  first : t.head? = some q
  accepted : s.validate t = .ok ()
  /-- The literal ends where the text does. -/
  whole : s.literalEnd t 0 = t.length
  meaning : s.meaning q t.tail.dropLast = value

theorem meaning_doubled (hq : isQuote q = true) (t : Text) :
    s.meaning q (q :: q :: t) = q :: s.meaning q t := by
  simp [Scanner.meaning, quote_ne_backslash hq]

theorem meaning_char (hq : c ≠ q) (he : s.backslashEscapes = true → c ≠ '\\') (t : Text) :
    s.meaning q (c :: t) = c :: s.meaning q t := by
  have hno : (s.backslashEscapes && c == '\\') = false := by simpa using he
  cases t <;> simp [Scanner.meaning, hno, hq]

/-! ## Without backslashes -/

/-- Where a backslash escapes nothing, a text with its quotes doubled is the content of a literal. -/
theorem content_doubled (h : s.backslashEscapes = true → '\\' ∉ t) : s.Content q (doubled q t) := by
  induction t with
  | nil => exact .nil
  | cons c t ih =>
    have hc : s.backslashEscapes = true → c ≠ '\\' := fun hs hc => h hs (hc ▸ List.mem_cons_self)
    have ht := ih fun hs hmem => h hs (List.mem_cons_of_mem _ hmem)
    rw [doubled_cons]
    split
    · exact .doubled ht
    · rename_i hq
      exact .char hq hc ht

/-- It stands for the text as it was. -/
theorem meaning_doubled_text (hq : isQuote q = true) (h : s.backslashEscapes = true → '\\' ∉ t) :
    s.meaning q (doubled q t) = t := by
  induction t with
  | nil => rfl
  | cons c t ih =>
    have hc : s.backslashEscapes = true → c ≠ '\\' := fun hs hc => h hs (hc ▸ List.mem_cons_self)
    have ht := ih fun hs hmem => h hs (List.mem_cons_of_mem _ hmem)
    rw [doubled_cons]
    split
    · rename_i he
      rw [meaning_doubled hq, ht, he]
    · rename_i hne
      rw [meaning_char hne hc, ht]

/-! ## With backslashes -/

/-- Undoing the escapes adds no backslash, and takes one away where there is one. -/
theorem count_meaning (hq : isQuote q = true) (he : s.backslashEscapes = true) (t : Text) :
    (s.meaning q t).count '\\' ≤ t.count '\\' ∧
      ('\\' ∈ t → (s.meaning q t).count '\\' < t.count '\\') := by
  have hb : q ≠ '\\' := quote_ne_backslash hq
  fun_induction Scanner.meaning s q t with
  | case1 => simp
  | case2 c hc => simp_all
  | case3 c hc =>
    have hc : c ≠ '\\' := by simpa [he] using hc
    simp [hc.symm]
  | case4 c e t hc ih =>
    -- the escape itself is gone, whatever it escapes
    have hc : c = '\\' := by simpa [he] using hc
    subst hc
    have hle := ih.1
    simp only [List.count_cons, beq_self_eq_true, if_true]
    omega
  | case5 c e t hc hdouble ih =>
    simp only [Bool.and_eq_true, beq_iff_eq] at hdouble
    obtain ⟨rfl, rfl⟩ := hdouble
    simpa [List.count_cons, hb, Ne.symm hb] using ih
  | case6 c e t hc hdouble ih =>
    have hc : c ≠ '\\' := by simpa [he] using hc
    simpa [List.count_cons_of_ne hc, Ne.symm hc] using ih

theorem count_doubled (hq : isQuote q = true) (t : Text) :
    (doubled q t).count '\\' = t.count '\\' := by
  have hb : q ≠ '\\' := quote_ne_backslash hq
  induction t with
  | nil => rfl
  | cons c t ih =>
    rw [doubled_cons]
    split
    · rename_i hc
      simp [hc, hb, ih]
    · simp [List.count_cons, ih]

/-- A text between quotes, with the quotes in it doubled, is read back exactly when no backslash in it
is an escape. -/
theorem readsBack_quoteLiteral_iff : s.ReadsBack '\'' (Dialect.quoteLiteral t) t ↔
    ¬(s.backslashEscapes = true ∧ '\\' ∈ t) := by
  have hq : isQuote '\'' = true := rfl
  have hinside : (Dialect.quoteLiteral t).tail.dropLast = doubled '\'' t := by
    simp [Dialect.quoteLiteral]
  constructor
  · rintro h ⟨he, hmem⟩
    have hmeaning := h.meaning
    rw [hinside] at hmeaning
    have hmem' : '\\' ∈ doubled '\'' t := by
      rwa [← List.count_pos_iff, count_doubled hq, List.count_pos_iff]
    have hlt := (count_meaning hq he (doubled '\'' t)).2 hmem'
    rw [hmeaning, count_doubled hq] at hlt
    exact Nat.lt_irrefl _ hlt
  · intro h
    have ht : s.backslashEscapes = true → '\\' ∉ t := fun he hmem => h ⟨he, hmem⟩
    have hcontent : s.Content '\'' (doubled '\'' t) := content_doubled ht
    refine ⟨hq, rfl, validate_eq_ok.2 (balanced_literal hq hcontent), ?_, ?_⟩
    · have hrest : ([] : Text).head? ≠ some '\'' := nofun
      have hend := hcontent.literalEnd (a := []) hq hrest
      simpa [Dialect.quoteLiteral] using hend
    · rw [hinside]
      exact meaning_doubled_text hq ht

/-- What follows such a literal does not belong to it. -/
theorem literalEnd_quoteLiteral (h : ¬(s.backslashEscapes = true ∧ '\\' ∈ t))
    (hrest : rest.head? ≠ some '\'') :
    s.literalEnd (a ++ Dialect.quoteLiteral t ++ rest) a.length =
      (a ++ Dialect.quoteLiteral t).length := by
  have hcontent : s.Content '\'' (doubled '\'' t) := content_doubled fun he hmem => h ⟨he, hmem⟩
  have hend := hcontent.literalEnd (a := a) rfl hrest
  simpa [Dialect.quoteLiteral, Nat.add_assoc] using hend

end Scanner

/-! ## Values -/

/-- What a value stands for that is written between quotes: a string for itself, a list or an object
for its text. -/
def Value.quoted? : Value → Option Text
  | .string u => some u.toList
  | .array items => some (Value.array items).render.toList
  | .object fields => some (Value.object fields).render.toList
  | .null | .bool _ | .int _ | .decimal _ => none

theorem Dialect.literal_of_quoted (h : v.quoted? = some t) : d.literal v = quoteLiteral t := by
  cases v with
  | string u | array items | object fields =>
    cases h
    rfl
  | null | bool | int | decimal => cases h

/-- A value between quotes is read back as one literal, with the value as its meaning, exactly when
there is no backslash in it that the scanner takes for an escape; what follows in a statement is then
no part of the literal. -/
theorem Dialect.literal_readsBack_iff (d : Dialect) (config : Config) (h : v.quoted? = some t) :
    (config.scanner.ReadsBack '\'' (d.literal v) t ↔
        ¬(config.backslashEscapes = true ∧ '\\' ∈ t)) ∧
      (¬(config.backslashEscapes = true ∧ '\\' ∈ t) →
        ∀ before after : Text, after.head? ≠ some '\'' →
          config.scanner.literalEnd (before ++ d.literal v ++ after) before.length =
            (before ++ d.literal v).length) := by
  rw [literal_of_quoted h]
  exact ⟨Scanner.readsBack_quoteLiteral_iff,
    fun hno before after hafter => Scanner.literalEnd_quoteLiteral hno hafter⟩

theorem Dialect.literal_readsBack_name :
    (Value.string "it's").quoted? = some "it's".toList ∧
      (({ backslashEscapes := true } : Config).scanner.ReadsBack '\''
        (mysql.literal (.string "it's")) "it's".toList) :=
  ⟨rfl, (literal_readsBack_iff mysql { backslashEscapes := true } rfl).1.2 (by decide)⟩

/-- A backslash at the end takes the closing quote for content, and the literal does not end. -/
theorem Dialect.literal_folder : ¬∀ (d : Dialect) (config : Config) (v : Value) (t : Text),
    v.quoted? = some t → config.scanner.ReadsBack '\'' (d.literal v) t := by
  intro h
  have hfolder := h mysql { backslashEscapes := true } (.string "C:\\") _ rfl
  have hfault : (({ backslashEscapes := true } : Config).scanner.validate
      (mysql.literal (.string "C:\\"))) = .error (.unterminatedQuote '\'' 0) := by decide +kernel
  cases hfault.symm.trans hfolder.accepted

end ObjectQuery
