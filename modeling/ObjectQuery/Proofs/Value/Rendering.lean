import ObjectQuery.Proofs.Sql.Literals
import ObjectQuery.Proofs.Value.Notation

/-! # Values are told apart by their texts

A text tells where its value ends: strings, arrays and objects end with a character of their own, and
what follows a number is no part of its notation. So the value at the front of a text can be read back,
and values with one text are the same.

* `readEscaped`: the character at the front of an escaped string;
* `Value.mark`: the first character of a text tells the kind of its value;
* `Value.render_injective`: values are told apart by their texts. -/

namespace ObjectQuery

variable {t u r r' : Text} {a b : String} {c : Char}

/-! ## Strings -/

/-- The digit that a hexadecimal character stands for. -/
def hexValue (c : Char) : Nat := if c.isDigit then c.toNat - '0'.toNat else c.toNat - 'a'.toNat + 10

/-- The character that stands escaped at the front of a text, and what follows it; `none` where a
quote stands. -/
def readEscaped : Text → Option (Char × Text)
  | [] => none
  | c :: t =>
    if c = '"' then none
    else if c ≠ '\\' then some (c, t)
    else match t with
      | 'u' :: _ :: _ :: high :: low :: t => some (Char.ofNat (16 * hexValue high + hexValue low), t)
      | 'n' :: t => some ('\n', t)
      | 'r' :: t => some ('\r', t)
      | 't' :: t => some ('\t', t)
      | 'b' :: t => some (Char.ofNat 0x08, t)
      | 'f' :: t => some (Char.ofNat 0x0C, t)
      | c :: t => some (c, t)
      | [] => none

theorem readEscaped_escapeChar (c : Char) (t : Text) : readEscaped (escapeChar c ++ t) = some (c, t) := by
  have hhex : ∀ n < 0x20,
      16 * hexValue (Nat.digitChar (n / 16)) + hexValue (Nat.digitChar (n % 16)) = n := by decide
  have hcode {n : Nat} (h : (c.toNat == n) = true) : Char.ofNat n = c := by
    rw [← beq_iff_eq.1 h, Char.ofNat_toNat]
  rw [escapeChar]
  split_ifs with hquote hbackslash hn hr ht hb hf hlow
  · rw [beq_iff_eq.1 hquote]; rfl
  · rw [beq_iff_eq.1 hbackslash]; rfl
  · rw [beq_iff_eq.1 hn]; rfl
  · rw [beq_iff_eq.1 hr]; rfl
  · rw [beq_iff_eq.1 ht]; rfl
  · rw [← hcode hb]; rfl
  · rw [← hcode hf]; rfl
  · show some (Char.ofNat (16 * hexValue (Nat.digitChar (c.toNat / 16)) +
      hexValue (Nat.digitChar (c.toNat % 16))), t) = some (c, t)
    rw [hhex _ hlow, Char.ofNat_toNat]
  · simp only [beq_iff_eq] at hquote hbackslash
    simp only [List.singleton_append, readEscaped.eq_def, if_neg hquote, if_pos hbackslash]

theorem escaped_append_inj {s s' : Text}
    (h : s.flatMap escapeChar ++ '"' :: r = s'.flatMap escapeChar ++ '"' :: r') : s = s' ∧ r = r' := by
  induction s generalizing s' with
  | nil =>
    cases s' with
    | nil => exact ⟨rfl, (List.cons.inj h).2⟩
    | cons c s' =>
      have hread := congrArg readEscaped h
      rw [List.flatMap_cons, List.append_assoc, readEscaped_escapeChar] at hread
      cases hread
  | cons c s ih =>
    have hread := congrArg readEscaped h
    rw [List.flatMap_cons, List.append_assoc, readEscaped_escapeChar] at hread
    cases s' with
    | nil => cases hread
    | cons c' s' =>
      rw [List.flatMap_cons, List.append_assoc, readEscaped_escapeChar] at hread
      obtain ⟨rfl, hrest⟩ := Prod.mk.inj (Option.some.inj hread)
      obtain ⟨rfl, hr⟩ := ih hrest
      exact ⟨rfl, hr⟩

theorem quoteString_append_inj (h : (quoteString a).toList ++ r = (quoteString b).toList ++ r') :
    a = b ∧ r = r' := by
  simp only [quoteString, String.toList_ofList, List.cons_append, List.append_assoc,
    List.cons.injEq, true_and] at h
  obtain ⟨hs, hr⟩ := escaped_append_inj h
  exact ⟨String.toList_inj.1 hs, hr⟩

/-! ## Numbers -/

/-- No part of a number stands at the front. -/
def Delimited (r : Text) : Prop := ∀ c ∈ r.head?, isNumeric c = false

theorem delimited_nil : Delimited [] := nofun

theorem delimited_cons (h : isNumeric c = false) : Delimited (c :: r) := fun _ hc =>
  Option.some.inj hc ▸ h

theorem Numeric.append_inj (ht : Numeric t) (hu : Numeric u) (hr : Delimited r) (hr' : Delimited r')
    (h : t ++ r = u ++ r') : t = u ∧ r = r' := by
  have hspan {t r : Text} (ht : Numeric t) (hr : Delimited r) :
      (t ++ r).takeWhile isNumeric = t := by
    rw [List.takeWhile_append_of_pos ht]
    cases r with
    | nil => exact List.append_nil t
    | cons c r => rw [List.takeWhile_cons_of_neg (by simp [hr c rfl]), List.append_nil]
  have htu : t = u := by rw [← hspan ht hr, h, hspan hu hr']
  exact ⟨htu, List.append_cancel_left (htu ▸ h)⟩

/-- The text of a whole number has digits only behind its first character. -/
theorem isDigit_of_mem_tail_int (n : Int) (hc : c ∈ (toString n).toList.tail) : c.isDigit = true := by
  have hdigits (n : Nat) : Digits (toString n).toList := by
    rw [Nat.toString_eq_repr, Nat.toList_repr]
    exact .toDigits n
  cases n with
  | ofNat n => exact hdigits n c (List.mem_of_mem_tail hc)
  | negSucc n =>
    change c ∈ ("-" ++ toString (n + 1)).toList.tail at hc
    rw [String.toList_append] at hc
    exact hdigits (n + 1) c hc

theorem toString_int_ne_render (n : Int) (d : Decimal) : toString n ≠ d.render := by
  intro h
  obtain ⟨c, w, x, t, hbody, -, hx⟩ := d.exists_body_eq
  have hmem : x ∈ d.render.toList.tail := by
    rw [Decimal.render, String.toList_append, String.toList_ofList, hbody]
    split <;> simp
  rw [← h] at hmem
  rw [isDigit_of_mem_tail_int n hmem] at hx
  cases hx

/-! ## Lists -/

section
variable {α : Type} {text : α → Text} {x y : α} {xs ys : List α} {close : Char}

/-- What follows the element at the front of a text is read back with it. -/
def Delimits (text : α → Text) (x : α) : Prop :=
  ∀ (y : α) (r r' : Text), Delimited r → Delimited r' → text x ++ r = text y ++ r' → x = y ∧ r = r'

/-- Texts with commas between them. -/
def commaSeparated (text : α → Text) : List α → Text
  | [] => []
  | x :: xs => text x ++ xs.flatMap fun y => ',' :: text y

theorem commaSeparated_cons_cons : commaSeparated text (x :: y :: xs) =
    text x ++ ',' :: commaSeparated text (y :: xs) := by
  rw [commaSeparated, commaSeparated, List.flatMap_cons, List.cons_append]

theorem delimited_flatMap (hclose : isNumeric close = false) :
    Delimited (xs.flatMap (fun y => ',' :: text y) ++ close :: r) := by
  cases xs with
  | nil => exact delimited_cons hclose
  | cons x xs => exact delimited_cons rfl

/-- Elements behind commas are read back up to the character that closes their list. -/
theorem flatMap_append_inj (hx : ∀ x ∈ xs, Delimits text x) (hclose : isNumeric close = false)
    (hcomma : close ≠ ',') (h : xs.flatMap (fun y => ',' :: text y) ++ close :: r =
      ys.flatMap (fun y => ',' :: text y) ++ close :: r') : xs = ys ∧ r = r' := by
  induction xs generalizing ys with
  | nil =>
    cases ys with
    | nil => exact ⟨rfl, (List.cons.inj h).2⟩
    | cons y ys => exact (hcomma (List.cons.inj h).1).elim
  | cons x xs ih =>
    cases ys with
    | nil => exact (hcomma (List.cons.inj h).1.symm).elim
    | cons y ys =>
      obtain ⟨hfirst, hrest⟩ := List.forall_mem_cons.1 hx
      simp only [List.flatMap_cons, List.cons_append, List.append_assoc, List.cons.injEq,
        true_and] at h
      obtain ⟨rfl, hmore⟩ :=
        hfirst _ _ _ (delimited_flatMap hclose) (delimited_flatMap hclose) h
      obtain ⟨rfl, hr⟩ := ih hrest hmore
      exact ⟨rfl, hr⟩

theorem commaSeparated_append_inj (hx : ∀ x ∈ xs, Delimits text x)
    (hclose : isNumeric close = false) (hcomma : close ≠ ',')
    (hstart : ∀ (x : α) (r r' : Text), text x ++ r ≠ close :: r')
    (h : commaSeparated text xs ++ close :: r = commaSeparated text ys ++ close :: r') :
    xs = ys ∧ r = r' := by
  cases xs with
  | nil =>
    cases ys with
    | nil => exact ⟨rfl, (List.cons.inj h).2⟩
    | cons y ys =>
      rw [commaSeparated, commaSeparated, List.append_assoc] at h
      exact (hstart y _ _ h.symm).elim
  | cons x xs =>
    rw [commaSeparated, List.append_assoc] at h
    cases ys with
    | nil => exact (hstart x _ _ h).elim
    | cons y ys =>
      obtain ⟨hfirst, hrest⟩ := List.forall_mem_cons.1 hx
      rw [commaSeparated, List.append_assoc] at h
      obtain ⟨rfl, hmore⟩ :=
        hfirst _ _ _ (delimited_flatMap hclose) (delimited_flatMap hclose) h
      obtain ⟨rfl, hr⟩ := flatMap_append_inj hrest hclose hcomma hmore
      exact ⟨rfl, hr⟩

end

/-! ## Values -/

namespace Value

/-- A character that stands for the kind of a value. -/
def mark : Value → Char
  | null => 'n'
  | bool _ => 'b'
  | int _ | decimal _ => '0'
  | string _ => '"'
  | array _ => '['
  | object _ => '\x7b'

/-- The kind of the values whose texts start with a character. -/
def markOf (c : Char) : Char :=
  if isNumeric c then '0' else if c = 't' || c = 'f' then 'b' else c

theorem markOf_numeric (ht : Numeric t) (hne : t ≠ []) : ∃ c u, t = c :: u ∧ markOf c = '0' := by
  obtain ⟨c, u, rfl⟩ := List.exists_cons_of_ne_nil hne
  exact ⟨c, u, rfl, if_pos (ht c List.mem_cons_self)⟩

theorem markOf_render : (v : Value) → ∃ c t, v.render.toList = c :: t ∧ markOf c = v.mark
  | null => ⟨'n', _, rfl, rfl⟩
  | bool true => ⟨'t', _, rfl, rfl⟩
  | bool false => ⟨'f', _, rfl, rfl⟩
  | int n => markOf_numeric (numeric_int n) (toList_toString_int_ne_nil n)
  | decimal d => markOf_numeric d.numeric_render d.toList_render_ne_nil
  | string s => ⟨'"', _, String.toList_ofList, rfl⟩
  | array items => ⟨'[', _, by rw [render, String.toList_append, String.toList_append]; rfl, rfl⟩
  | object fields =>
    ⟨'\x7b', _, by rw [render, String.toList_append, String.toList_append]; rfl, rfl⟩

theorem mark_eq {v w : Value} (h : v.render.toList ++ r = w.render.toList ++ r') :
    v.mark = w.mark := by
  obtain ⟨c, t, hv, hc⟩ := v.markOf_render
  obtain ⟨c', t', hw, hc'⟩ := w.markOf_render
  rw [hv, hw] at h
  rw [← hc, ← hc', (List.cons.inj h).1]

theorem render_append_ne (v : Value) (r r' : Text) : v.render.toList ++ r ≠ ']' :: r' := by
  obtain ⟨c, t, hv, hc⟩ := v.markOf_render
  rw [hv]
  intro h
  rw [(List.cons.inj h).1] at hc
  cases v <;> exact absurd hc (by simp [mark, markOf, isNumeric])

/-- The text of a field of an object. -/
def fieldText (f : String × Value) : Text := (quoteString f.1).toList ++ ':' :: f.2.render.toList

theorem fieldText_append_ne (f : String × Value) (r r' : Text) : fieldText f ++ r ≠ '\x7d' :: r' := by
  rw [fieldText, quoteString, String.toList_ofList]
  simp

theorem toList_renderItems (vs : List Value) :
    (renderItems vs).toList = commaSeparated (·.render.toList) vs := by
  induction vs with
  | nil => rfl
  | cons v vs ih =>
    cases vs with
    | nil => rw [renderItems, commaSeparated, List.flatMap_nil, List.append_nil]
    | cons w vs =>
      rw [commaSeparated_cons_cons, ← ih]
      simp only [renderItems, String.toList_append, List.append_assoc]
      rfl

theorem toList_renderFields (fs : List (String × Value)) :
    (renderFields fs).toList = commaSeparated fieldText fs := by
  induction fs with
  | nil => rfl
  | cons f fs ih =>
    obtain ⟨n, v⟩ := f
    cases fs with
    | nil =>
      rw [commaSeparated, List.flatMap_nil, List.append_nil]
      simp only [renderFields, String.toList_append, List.append_assoc]
      rfl
    | cons g fs =>
      rw [commaSeparated_cons_cons, ← ih]
      simp only [renderFields, String.toList_append, List.append_assoc, fieldText]
      rfl

/-- The value at the front of a text is read back. -/
abbrev ReadBack (v : Value) : Prop := Delimits (·.render.toList) v

theorem delimits_fieldText {f : String × Value} (h : f.2.ReadBack) : Delimits fieldText f := by
  intro g r r' hr hr' he
  simp only [fieldText, List.append_assoc, List.cons_append] at he
  obtain ⟨hn, he⟩ := quoteString_append_inj he
  obtain ⟨hv, hrest⟩ := h _ _ _ hr hr' (List.cons.inj he).2
  exact ⟨Prod.ext hn hv, hrest⟩

theorem readBack_number {v : Value} (hv : v.mark = '0')
    (hinj : ∀ w : Value, w.mark = '0' → v.render = w.render → v = w) : v.ReadBack := by
  have hnumeric {v : Value} (hv : v.mark = '0') : Numeric v.render.toList := by
    cases v with
    | int n => exact numeric_int n
    | decimal d => exact d.numeric_render
    | _ => simp [mark] at hv
  intro w r r' hr hr' h
  have hw := (mark_eq h).symm.trans hv
  obtain ⟨he, hrest⟩ := (hnumeric hv).append_inj (hnumeric hw) hr hr' h
  exact ⟨hinj w hw (String.toList_inj.1 he), hrest⟩

mutual

theorem readBack : (v : Value) → v.ReadBack
  | null => fun w r r' hr hr' h => by
    have hmark := mark_eq h
    cases w with
    | null => exact ⟨rfl, List.append_cancel_left h⟩
    | _ => simp [mark] at hmark
  | bool x => fun w r r' hr hr' h => by
    have hmark := mark_eq h
    cases w with
    | bool y => cases x <;> cases y <;> first | exact ⟨rfl, List.append_cancel_left h⟩ | cases h
    | _ => simp [mark] at hmark
  | int n => readBack_number rfl fun w hw h => by
    cases w with
    | int m => exact congrArg int (Int.repr_injective h)
    | decimal d => exact (toString_int_ne_render n d h).elim
    | _ => simp [mark] at hw
  | decimal d => readBack_number rfl fun w hw h => by
    cases w with
    | int n => exact (toString_int_ne_render n d h.symm).elim
    | decimal d' => exact congrArg decimal (Decimal.render_injective h)
    | _ => simp [mark] at hw
  | string s => fun w r r' hr hr' h => by
    have hmark := mark_eq h
    cases w with
    | string s' =>
      obtain ⟨rfl, hr⟩ := quoteString_append_inj h
      exact ⟨rfl, hr⟩
    | _ => simp [mark] at hmark
  | array vs => fun w r r' hr hr' h => by
    have hmark := mark_eq h
    cases w with
    | array ws =>
      simp only [render, String.toList_append, toList_renderItems, List.append_assoc] at h
      obtain ⟨rfl, hr⟩ := commaSeparated_append_inj (readBack_items vs) (by decide) (by decide)
        render_append_ne (List.cons.inj h).2
      exact ⟨rfl, hr⟩
    | _ => simp [mark] at hmark
  | object fs => fun w r r' hr hr' h => by
    have hmark := mark_eq h
    cases w with
    | object gs =>
      simp only [render, String.toList_append, toList_renderFields, List.append_assoc] at h
      obtain ⟨rfl, hr⟩ := commaSeparated_append_inj (delimits_fields fs) (by decide) (by decide)
        fieldText_append_ne (List.cons.inj h).2
      exact ⟨rfl, hr⟩
    | _ => simp [mark] at hmark

theorem readBack_items : (vs : List Value) → ∀ v ∈ vs, v.ReadBack
  | [] => List.forall_mem_nil _
  | v :: vs => List.forall_mem_cons.2 ⟨readBack v, readBack_items vs⟩

theorem delimits_fields : (fs : List (String × Value)) → ∀ f ∈ fs, Delimits fieldText f
  | [] => List.forall_mem_nil _
  | (_, v) :: fs => List.forall_mem_cons.2 ⟨delimits_fieldText (readBack v), delimits_fields fs⟩

end

/-- Values are told apart by their texts. -/
theorem render_injective : Function.Injective render := fun v w h =>
  (readBack v w [] [] delimited_nil delimited_nil (congrArg (·.toList ++ []) h)).1

end Value
end ObjectQuery
