import Mathlib.Algebra.Field.Rat
import Mathlib.Data.List.TakeWhile
import Mathlib.Tactic.NormNum
import Mathlib.Tactic.Ring
import ObjectQuery.Value.Decimal

/-! # The notation of numbers

A number with a fraction is read back from its notation, wherever the point stands in it: the digits
without the point, times a power of ten. A canonical numeral is determined by the number it stands for,
so no two of them have one notation.

* `Decimal.magnitude`, `readMagnitude`: the number of a numeral, and of a notation;
* `Decimal.readMagnitude_body`: they agree;
* `Decimal.render_injective`: numerals are told apart by their notation. -/

namespace ObjectQuery

variable {d d' : Decimal} {m w f : List Char} {e : Int}

/-! ## Canonical numerals -/

namespace Decimal

/-- The number without its sign. -/
def magnitude (d : Decimal) : ℚ := d.digits * 10 ^ d.exponent

theorem ten_zpow_ne_zero (e : Int) : (10 : ℚ) ^ e ≠ 0 := zpow_ne_zero e (by norm_num)

theorem magnitude_eq_zero_iff : d.magnitude = 0 ↔ d.digits = 0 := by
  rw [magnitude, mul_eq_zero, or_iff_left (ten_zpow_ne_zero _), Nat.cast_eq_zero]

/-- The digits with the greater of two exponents would have to end in a zero on the lesser one. -/
theorem exponent_le_of_magnitude_eq (hd : d.digits % 10 ≠ 0) (h : d.magnitude = d'.magnitude) :
    d'.exponent ≤ d.exponent := by
  by_contra hlt
  obtain ⟨k, hk⟩ : ∃ k : Nat, d'.exponent = d.exponent + (k + 1 : Nat) :=
    ⟨(d'.exponent - d.exponent - 1).toNat, by omega⟩
  have hdigits : (d.digits : ℚ) = (d'.digits * 10 ^ (k + 1) : Nat) := by
    refine mul_right_cancel₀ (ten_zpow_ne_zero d.exponent) ?_
    rw [magnitude, magnitude, hk, zpow_add₀ (by norm_num), zpow_natCast] at h
    rw [h]
    push_cast
    ring
  rw [Nat.cast_inj, pow_succ, ← mul_assoc] at hdigits
  exact hd (hdigits ▸ Nat.mul_mod_left _ 10)

theorem eq_of_magnitude_eq (hs : d.negative = d'.negative) (h : d.magnitude = d'.magnitude) :
    d = d' := by
  obtain ⟨hdigits, hexponent⟩ : d.digits = d'.digits ∧ d.exponent = d'.exponent := by
    by_cases hzero : d.digits = 0
    · have hzero' : d'.digits = 0 := by
        rwa [← magnitude_eq_zero_iff, ← h, magnitude_eq_zero_iff]
      have hd := d.canonical
      have hd' := d'.canonical
      omega
    · have hzero' : d'.digits ≠ 0 := by
        rwa [Ne, ← magnitude_eq_zero_iff, ← h, magnitude_eq_zero_iff]
      have hd := d.canonical.resolve_left fun hz => hzero hz.1
      have hd' := d'.canonical.resolve_left fun hz => hzero' hz.1
      have hexponent := (exponent_le_of_magnitude_eq hd' h.symm).antisymm
        (exponent_le_of_magnitude_eq hd h)
      refine ⟨?_, hexponent⟩
      rw [magnitude, magnitude, hexponent] at h
      exact Nat.cast_injective (mul_right_cancel₀ (ten_zpow_ne_zero _) h)
  cases d
  cases d'
  cases hs
  cases hdigits
  cases hexponent
  rfl

end Decimal

/-! ## Reading a notation -/

/-- The power of ten that a text with a sign in front stands for. -/
def readExponent : List Char → Int
  | '-' :: digits => -Nat.ofDigitChars 10 digits 0
  | _ :: digits => Nat.ofDigitChars 10 digits 0
  | [] => 0

/-- The number that digits around a point stand for, times a power of ten. -/
def readMantissa (mantissa : List Char) (power : Int) : ℚ :=
  Nat.ofDigitChars 10 (mantissa.filter (· != '.')) 0 *
    10 ^ (power - (mantissa.dropWhile (· != '.')).tail.length)

/-- The number that a notation stands for, without its sign. -/
def readMagnitude (t : List Char) : ℚ :=
  readMantissa (t.takeWhile (· != 'e')) (readExponent (t.dropWhile (· != 'e')).tail)

/-- The text consists of digits. -/
def Digits (t : List Char) : Prop := ∀ c ∈ t, c.isDigit = true

namespace Digits

theorem append (hw : Digits w) (hf : Digits f) : Digits (w ++ f) :=
  List.forall_mem_append.2 ⟨hw, hf⟩

theorem take (hw : Digits w) (n : Nat) : Digits (w.take n) :=
  fun c hc => hw c (List.mem_of_mem_take hc)

theorem drop (hw : Digits w) (n : Nat) : Digits (w.drop n) :=
  fun c hc => hw c (List.mem_of_mem_drop hc)

theorem toDigits (n : Nat) : Digits (Nat.toDigits 10 n) :=
  fun _ hc => Nat.isDigit_of_mem_toDigits (by decide) (by decide) hc

theorem zero : Digits ['0'] := by simp [Digits]

theorem zeros (n : Nat) : Digits (List.replicate n '0') := fun c hc => by
  rw [List.eq_of_mem_replicate hc]
  rfl

theorem ne {c : Char} (hw : Digits w) (hc : c.isDigit = false) : ∀ x ∈ w, (x != c) = true := by
  intro x hx
  rw [bne_iff_ne]
  rintro rfl
  rw [hw x hx] at hc
  cases hc

end Digits

theorem span_append {c : Char} (hm : ∀ x ∈ m, (x != c) = true) (t : List Char) :
    (m ++ c :: t).takeWhile (· != c) = m ∧ (m ++ c :: t).dropWhile (· != c) = c :: t := by
  rw [List.takeWhile_append_of_pos hm, List.dropWhile_append_of_pos hm]
  simp

theorem readExponent_exponentText (e : Int) : readExponent (Decimal.exponentText e) = e := by
  have hread : Nat.ofDigitChars 10 (toString e.natAbs).toList 0 = e.natAbs := by
    rw [Nat.toString_eq_repr, Nat.toList_repr, Nat.ofDigitChars_ten_toDigits]
  rw [Decimal.exponentText]
  split
  · show -(Nat.ofDigitChars 10 _ 0 : Int) = e
    rw [hread]
    omega
  · show (Nat.ofDigitChars 10 _ 0 : Int) = e
    rw [hread]
    omega

theorem readMagnitude_power (hm : ∀ x ∈ m, (x != 'e') = true) (e : Int) :
    readMagnitude (m ++ 'e' :: Decimal.exponentText e) = readMantissa m e := by
  obtain ⟨htake, hdrop⟩ := span_append hm (Decimal.exponentText e)
  rw [readMagnitude, htake, hdrop, List.tail_cons, readExponent_exponentText]

theorem readMagnitude_plain (hm : ∀ x ∈ m, (x != 'e') = true) :
    readMagnitude m = readMantissa m 0 := by
  rw [readMagnitude, List.takeWhile_eq_self_iff.2 hm, List.dropWhile_eq_nil_iff.2 hm]
  rfl

theorem readMantissa_digits (hw : Digits w) :
    readMantissa w e = Nat.ofDigitChars 10 w 0 * 10 ^ e := by
  have hpoint := hw.ne (c := '.') rfl
  rw [readMantissa, List.filter_eq_self.2 hpoint, List.dropWhile_eq_nil_iff.2 hpoint]
  simp

theorem readMantissa_point (hw : Digits w) (hf : Digits f) :
    readMantissa (w ++ '.' :: f) e = Nat.ofDigitChars 10 (w ++ f) 0 * 10 ^ (e - f.length) := by
  obtain ⟨-, hdrop⟩ := span_append (hw.ne (c := '.') rfl) f
  rw [readMantissa, hdrop, List.tail_cons, List.filter_append,
    List.filter_eq_self.2 (hw.ne (c := '.') rfl)]
  rw [List.filter_cons_of_neg (by decide), List.filter_eq_self.2 (hf.ne (c := '.') rfl)]

/-- Digits around a point have no letter among them. -/
theorem Digits.ne_point (hw : Digits w) (hf : Digits f) : ∀ x ∈ w ++ '.' :: f, (x != 'e') = true :=
  List.forall_mem_append.2 ⟨hw.ne rfl, List.forall_mem_cons.2 ⟨rfl, hf.ne rfl⟩⟩

theorem readMagnitude_point (hw : Digits w) (hf : Digits f) :
    readMagnitude (w ++ '.' :: f) = Nat.ofDigitChars 10 (w ++ f) 0 * 10 ^ (-(f.length : Int)) := by
  rw [readMagnitude_plain (hw.ne_point hf), readMantissa_point hw hf, zero_sub]

/-! ## Notations of numerals -/

namespace Decimal

theorem readMagnitude_body (d : Decimal) : readMagnitude d.body = d.magnitude := by
  have hdigits := Digits.toDigits d.digits
  have hvalue : Nat.ofDigitChars 10 (Nat.toDigits 10 d.digits) 0 = d.digits :=
    Nat.ofDigitChars_ten_toDigits
  have hne : Nat.toDigits 10 d.digits ≠ [] := Nat.toDigits_ne_nil
  rw [body, magnitude]
  dsimp only
  generalize hpoint : ((Nat.toDigits 10 d.digits).length : Int) + d.exponent = point
  generalize Nat.toDigits 10 d.digits = digits at *
  simp only [Bool.and_eq_true, decide_eq_true_eq]
  split_ifs with hzero hwhole hamong hbefore
  · -- zero
    rw [show ['0', '.', '0'] = ['0'] ++ '.' :: ['0'] from rfl, readMagnitude_point .zero .zero, hzero]
    simp [Nat.ofDigitChars_cons]
  · -- zeros up to the point
    obtain ⟨n, hn⟩ := Int.eq_ofNat_of_zero_le hwhole.1
    rw [readMagnitude_point (hdigits.append (.zeros _)) .zero, Nat.ofDigitChars_append,
      Nat.ofDigitChars_append, hvalue, Nat.ofDigitChars_replicate_zero, hn]
    simp [Nat.ofDigitChars_cons]
    ring
  · -- the point among the digits
    rw [readMagnitude_point (hdigits.take _) (hdigits.drop _), List.take_append_drop, hvalue,
      List.length_drop]
    congr 2
    omega
  · -- zeros behind the point
    rw [show '0' :: '.' :: List.replicate (-point).toNat '0' ++ digits =
        ['0'] ++ '.' :: (List.replicate (-point).toNat '0' ++ digits) from rfl,
      readMagnitude_point .zero (.append (.zeros _) hdigits), Nat.ofDigitChars_append,
      Nat.ofDigitChars_append, Nat.ofDigitChars_replicate_zero, List.length_append,
      List.length_replicate]
    rw [show 10 ^ (-point).toNat * Nat.ofDigitChars 10 ['0'] 0 = 0 by simp [Nat.ofDigitChars_cons],
      hvalue]
    congr 2
    omega
  · -- one digit before the point
    match digits, hne with
    | [digit], _ =>
      rw [readMagnitude_power (hdigits.ne rfl), readMantissa_digits hdigits, hvalue]
      congr 2
      simp at hpoint
      omega
    | first :: second :: rest, _ =>
      obtain ⟨hfirst, hrest⟩ : Digits [first] ∧ Digits (second :: rest) :=
        ⟨hdigits.take 1, hdigits.drop 1⟩
      show readMagnitude ([first] ++ '.' :: (second :: rest) ++ 'e' :: exponentText (point - 1)) = _
      rw [readMagnitude_power (hfirst.ne_point hrest), readMantissa_point hfirst hrest]
      rw [List.singleton_append, hvalue]
      congr 2
      simp at hpoint ⊢
      omega

/-! ## Telling numerals apart -/

/-- A notation starts with a digit, and behind its first digits stands a point or a letter. -/
theorem exists_body_eq (d : Decimal) :
    ∃ c w x t, d.body = c :: w ++ x :: t ∧ Digits (c :: w) ∧ x.isDigit = false := by
  have hdigits := Digits.toDigits d.digits
  have hne : Nat.toDigits 10 d.digits ≠ [] := Nat.toDigits_ne_nil
  rw [body]
  dsimp only
  generalize hpoint : ((Nat.toDigits 10 d.digits).length : Int) + d.exponent = point
  generalize Nat.toDigits 10 d.digits = digits at *
  obtain ⟨first, rest, rfl⟩ := List.exists_cons_of_ne_nil hne
  simp only [Bool.and_eq_true, decide_eq_true_eq]
  split_ifs with hzero hwhole hamong hbefore
  · exact ⟨'0', [], '.', ['0'], rfl, .zero, rfl⟩
  · exact ⟨first, _, '.', ['0'], rfl, hdigits.append (.zeros _), rfl⟩
  · obtain ⟨n, hn⟩ : ∃ n, point.toNat = n + 1 := ⟨point.toNat - 1, by omega⟩
    exact ⟨first, rest.take n, '.', _, by rw [hn]; rfl, hdigits.take (n + 1), rfl⟩
  · exact ⟨'0', [], '.', _, rfl, .zero, rfl⟩
  · cases rest with
    | nil => exact ⟨first, [], 'e', _, rfl, hdigits, rfl⟩
    | cons second rest => exact ⟨first, [], '.', _, rfl, hdigits.take 1, rfl⟩

/-- The sign and the number are read back from a notation. -/
theorem render_injective : Function.Injective render := by
  intro d d' h
  have htext : (if d.negative then ['-'] else []) ++ d.body =
      (if d'.negative then ['-'] else []) ++ d'.body := by
    have h := congrArg String.toList h
    simp only [render, String.toList_append, String.toList_ofList, apply_ite String.toList] at h
    exact h
  have hbody (d : Decimal) (t : List Char) : d.body ≠ '-' :: t := by
    obtain ⟨c, w, x, u, he, hw, -⟩ := d.exists_body_eq
    rw [he]
    rintro ⟨⟩
    cases hw '-' List.mem_cons_self
  have hmagnitude (hs : d.negative = d'.negative) (he : d.body = d'.body) : d = d' :=
    eq_of_magnitude_eq hs (by rw [← readMagnitude_body, he, readMagnitude_body])
  cases hs : d.negative <;> cases hs' : d'.negative <;> rw [hs, hs'] at htext
  · exact hmagnitude (hs.trans hs'.symm) htext
  · exact (hbody d _ htext).elim
  · exact (hbody d' _ htext.symm).elim
  · exact hmagnitude (hs.trans hs'.symm) (List.cons.inj htext).2

end Decimal
end ObjectQuery
