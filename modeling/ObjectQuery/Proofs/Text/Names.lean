import ObjectQuery.Proofs.Text.Cuts
import ObjectQuery.Text.Name

/-! # Names, keywords and numerals are neutral

Identifiers, paths, numerals and keywords hold no quote, no parenthesis and no `?`. A text of such
characters (`Tame`) opens nothing and marks no placeholder, wherever it stands outside literals.

* `Tame.neutral`: tame texts are neutral;
* `Text.tame_of_isWord`, `Text.tame_of_path?`, `Text.tame_of_unsigned?`: texts that are tame. -/

namespace ObjectQuery

/-- A text of plain characters without `?`. -/
def Tame (t : Text) : Prop := ∀ c ∈ t, IsPlain c ∧ c ≠ '?'

instance (c : Char) : Decidable (IsPlain c) := inferInstanceAs (Decidable (_ ∧ _ ∧ _))

instance (t : Text) : Decidable (Tame t) :=
  List.decidableBAll (fun c => IsPlain c ∧ c ≠ '?') t

variable {s : Scanner} {t u : Text} {c : Char}

namespace Tame

theorem nil : Tame [] := nofun

theorem append (h : Tame t) (h' : Tame u) : Tame (t ++ u) := fun c hc =>
  (List.mem_append.1 hc).elim (h c) (h' c)

theorem cons (h : IsPlain c ∧ c ≠ '?') (h' : Tame t) : Tame (c :: t) := fun d hd =>
  (List.mem_cons.1 hd).elim (· ▸ h) (h' d)

theorem flatten {ts : List Text} (h : ∀ t ∈ ts, Tame t) : Tame ts.flatten := fun c hc => by
  obtain ⟨t, ht, hc⟩ := List.mem_flatten.1 hc
  exact h t ht c hc

theorem plain (h : Tame t) : ∀ c ∈ t, IsPlain c := fun c hc => (h c hc).1

theorem not_mem (h : Tame t) : '?' ∉ t := fun hc => (h _ hc).2 rfl

theorem neutral (h : Tame t) : s.Neutral t :=
  ⟨Scanner.balanced_plain h.plain, Scanner.count_eq_zero h.not_mem⟩

theorem silent (h : Tame t) : s.Silent t := Scanner.Neutral.silent h.neutral

end Tame

/-- A character that is none of the five special ones. -/
theorem isPlain_and_ne_of_forall {p : Char → Bool} (h : p c = true)
    (hp : ['\'', '"', '(', ')', '?'].any p = false) : IsPlain c ∧ c ≠ '?' := by
  have hne (d : Char) (hd : d ∈ ['\'', '"', '(', ')', '?']) : c ≠ d := by
    rintro rfl
    exact List.any_eq_false.1 hp _ hd h
  refine ⟨⟨?_, hne _ (by simp), hne _ (by simp)⟩, hne _ (by simp)⟩
  simp [isQuote, hne '\'' (by simp), hne '"' (by simp)]

theorem isPlain_and_ne_of_isNameChar (h : isNameChar c = true) : IsPlain c ∧ c ≠ '?' :=
  isPlain_and_ne_of_forall h (by decide)

theorem isNameChar_of_isNameStart (h : isNameStart c = true) : isNameChar c = true := by
  simp only [isNameStart, isNameChar, Char.isAlphanum, Bool.or_eq_true] at h ⊢
  exact h.imp_left .inl

theorem isPlain_and_ne_of_isDigit (h : c.isDigit = true) : IsPlain c ∧ c ≠ '?' :=
  isPlain_and_ne_of_forall h (by decide)

theorem isPlain_and_ne_of_isBlank (h : isBlank c = true) : IsPlain c ∧ c ≠ '?' :=
  isPlain_and_ne_of_forall h (by decide)

theorem isNameChar_of_isDigit (h : c.isDigit = true) : isNameChar c = true := by
  simp [isNameChar, Char.isAlphanum, h]

theorem isDigit_of_mem_toString {n : Nat} (h : c ∈ (toString n).toList) : c.isDigit = true := by
  rw [Nat.toString_eq_repr, Nat.toList_repr] at h
  exact Nat.isDigit_of_mem_toDigits (by decide) (by decide) h

theorem isNameChar_of_mem_toString {n : Nat} (h : c ∈ (toString n).toList) :
    isNameChar c = true :=
  isNameChar_of_isDigit (isDigit_of_mem_toString h)

theorem toString_ne_nil (n : Nat) : (toString n).toList ≠ [] := fun h =>
  Nat.repr_ne_empty (String.toList_eq_nil_iff.1 h)

theorem isNameChar_toLower (h : c.isAlpha = true) : isNameChar c.toLower = true := by
  have hletter (h : isNameChar c = true) : isNameChar c.toLower = true := by
    simp only [Char.toLower]
    split
    · rename_i hup
      simp only [ge_iff_le, UInt32.le_iff_toNat_le] at hup
      have ha : 'A'.val.toNat = 65 := rfl
      have hz : 'Z'.val.toNat = 90 := rfl
      have hd : ('a'.val - 'A'.val).toNat = 32 := rfl
      have hla : 'a'.val.toNat = 97 := rfl
      have hlz : 'z'.val.toNat = 122 := rfl
      simp only [isNameChar, Char.isAlphanum, Char.isAlpha, Char.isLower, Bool.or_eq_true,
        decide_eq_true_eq, Bool.and_eq_true, ge_iff_le, UInt32.le_iff_toNat_le,
        UInt32.toNat_add]
      left; left; right
      omega
    · exact h
  exact hletter (by simp [isNameChar, Char.isAlphanum, h])

theorem tame_of_isNameChar (h : ∀ c ∈ t, isNameChar c = true) : Tame t := fun c hc =>
  isPlain_and_ne_of_isNameChar (h c hc)

theorem tame_of_isBlank (h : ∀ c ∈ t, isBlank c = true) : Tame t := fun c hc =>
  isPlain_and_ne_of_isBlank (h c hc)

theorem toUpper_eq_or (c : Char) :
    c.toUpper = c ∨ (65 ≤ c.toUpper.toNat && c.toUpper.toNat ≤ 90) = true := by
  simp only [Char.toUpper]
  split
  · rename_i h
    refine .inr ?_
    simp only [UInt32.le_iff_toNat_le] at h
    simp only [Char.toNat, UInt32.toNat_add, Bool.and_eq_true, decide_eq_true_eq]
    have ha : 'a'.val.toNat = 97 := rfl
    have hz : 'z'.val.toNat = 122 := rfl
    have hd : ('A'.val - 'a'.val).toNat = 4294967264 := rfl
    omega
  · exact .inl rfl

theorem Tame.map_toUpper (h : Tame t) : Tame (t.map Char.toUpper) := fun c hc => by
  obtain ⟨d, hd, rfl⟩ := List.mem_map.1 hc
  rcases toUpper_eq_or d with he | he
  · exact he.symm ▸ h d hd
  · exact isPlain_and_ne_of_forall (p := fun c => 65 ≤ c.toNat && c.toNat ≤ 90) he (by decide)

namespace Text

/-! ## Keywords -/

/-- A text that differs from a tame keyword in case only is tame. -/
theorem tame_of_sameWord {k : Text} (h : sameWord t k = true) (hk : Tame (k.map Char.toLower)) :
    Tame t := by
  rw [sameWord, beq_iff_eq] at h
  rw [← h] at hk
  intro c hc
  have hlow := hk _ (List.mem_map_of_mem hc)
  refine isPlain_and_ne_of_forall (p := fun d => !(['\'', '"', '(', ')', '?'].contains d)) ?_
    (by decide)
  -- the five characters are their own lower case
  simp only [List.contains_eq_mem, Bool.not_eq_true', decide_eq_false_iff_not]
  intro hmem
  simp only [List.mem_cons, List.not_mem_nil, or_false] at hmem
  rcases hmem with rfl | rfl | rfl | rfl | rfl
  · exact Bool.noConfusion hlow.1.1
  · exact Bool.noConfusion hlow.1.1
  · exact hlow.1.2.1 rfl
  · exact hlow.1.2.2 rfl
  · exact hlow.2 rfl

theorem tame_of_isWord {k : String} (h : t.isWord k = true)
    (hk : (k.toList.map Char.toLower).all isNameChar = true) : Tame t :=
  tame_of_sameWord h (tame_of_isNameChar (List.all_eq_true.1 hk))

/-- A text is no two different keywords. -/
theorem isWord_ne {j k : String} (h : t.isWord j = true)
    (hne : (j.toList.map Char.toLower == k.toList.map Char.toLower) = false) : t.isWord k = false := by
  rw [isWord, sameWord, beq_iff_eq] at h
  rw [isWord, sameWord, h, hne]

/-! ## Identifiers, paths and numerals -/

theorem all_isNameChar_of_isIdentifier (h : t.isIdentifier = true) :
    t.all isNameChar = true := by
  cases t with
  | nil => cases h
  | cons c cs =>
    simp only [isIdentifier, Bool.and_eq_true] at h
    rw [List.all_cons, isNameChar_of_isNameStart h.1, h.2]; rfl

theorem tame_of_isIdentifier (h : t.isIdentifier = true) : Tame t :=
  tame_of_isNameChar (List.all_eq_true.1 (all_isNameChar_of_isIdentifier h))

theorem fields_ne_nil (sep : Char) (t : Text) : fields sep t ≠ [] := by
  cases t with
  | nil => exact nofun
  | cons c cs =>
    simp only [fields]
    split
    · exact nofun
    · split <;> exact nofun

/-- A character of a text is the separator or belongs to one of the fields. -/
theorem mem_fields (sep : Char) (hc : c ∈ t) : c = sep ∨ ∃ f ∈ fields sep t, c ∈ f := by
  induction t with
  | nil => cases hc
  | cons d t ih =>
    simp only [fields]
    split
    · rename_i hd
      rcases List.mem_cons.1 hc with rfl | hc
      · exact .inl (beq_iff_eq.1 hd)
      · refine (ih hc).imp_right ?_
        rintro ⟨f, hf, hcf⟩
        exact ⟨f, List.mem_cons_of_mem _ hf, hcf⟩
    · split
      · rename_i hnil
        exact absurd hnil (fields_ne_nil sep t)
      · rename_i g gs hg
        rw [hg] at ih
        rcases List.mem_cons.1 hc with rfl | hc
        · exact .inr ⟨_, List.mem_cons_self, List.mem_cons_self⟩
        · refine (ih hc).imp_right ?_
          rintro ⟨f, hf, hcf⟩
          rcases List.mem_cons.1 hf with rfl | hf
          · exact ⟨_, List.mem_cons_self, List.mem_cons_of_mem _ hcf⟩
          · exact ⟨f, List.mem_cons_of_mem _ hf, hcf⟩

/-- The names of a path are identifiers. -/
theorem isIdentifier_of_path? {names : List String} (h : t.path? = some names) :
    names ≠ [] ∧ (∀ n ∈ names, isIdentifier n.toList = true) ∧ Tame t := by
  simp only [path?] at h
  split at h
  · rename_i hall
    cases h
    rw [List.all_eq_true] at hall
    refine ⟨by simpa using fields_ne_nil '.' t, ?_, ?_⟩
    · intro n hn
      obtain ⟨f, hf, rfl⟩ := List.mem_map.1 hn
      rw [String.toList_ofList]
      exact hall f hf
    · intro c hc
      rcases mem_fields '.' hc with rfl | ⟨f, hf, hcf⟩
      · exact ⟨⟨by decide, by decide, by decide⟩, by decide⟩
      · exact tame_of_isIdentifier (hall f hf) c hcf
  · cases h

theorem tame_of_path? {names : List String} (h : t.path? = some names) : Tame t :=
  (isIdentifier_of_path? h).2.2

theorem tame_of_unsigned? {n : Nat} (h : t.unsigned? = some n) : Tame t := by
  simp only [unsigned?] at h
  split at h
  · rename_i hd
    simp only [Bool.and_eq_true, List.all_eq_true] at hd
    exact fun c hc => isPlain_and_ne_of_isDigit (hd.1.2 c hc)
  · cases h

end Text
end ObjectQuery
