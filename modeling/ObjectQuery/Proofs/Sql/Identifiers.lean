import ObjectQuery.Sql.Printer

/-! # Quoted identifiers that are read back

A dialect writes an identifier between an opening and a closing character, and doubles the closing
character inside. The end is found without knowing the identifier, by looking one character ahead: a
closing character before another one is content.

* `Dialect.readIdentifier`: the identifier a text begins with, and what follows it;
* `Dialect.readIdentifier_eq_some_iff`: the texts that begin with a quoted identifier;
* `Dialect.quoteIdentifier_append_inj`: the identifier and what follows it, determined by the text;
* `Sql.Style.column_inj`: the table and the column of a quoted column, likewise. -/

namespace ObjectQuery

variable {q c : Char} {t content rest a b : Text} {d : Dialect} {name other : String}

/-! ## The content -/

/-- Reads up to the first closing character `q` that is not doubled, and takes two of them for one
character of content. The result is the content and what follows the closing character. -/
def readQuoted (q : Char) : Text → Option (Text × Text)
  | [] => none
  | c :: t =>
    if c = q then
      match t with
      | [] => some ([], [])
      | e :: u => if e = q then (readQuoted q u).map (Prod.map (q :: ·) id) else some ([], e :: u)
    else (readQuoted q t).map (Prod.map (c :: ·) id)

theorem readQuoted_char (h : c ≠ q) (t : Text) :
    readQuoted q (c :: t) = (readQuoted q t).map (Prod.map (c :: ·) id) := by
  rw [readQuoted.eq_def]
  exact if_neg h

theorem readQuoted_doubled (q : Char) (t : Text) :
    readQuoted q (q :: q :: t) = (readQuoted q t).map (Prod.map (q :: ·) id) := by
  simp [readQuoted]

theorem readQuoted_closing (h : rest.head? ≠ some q) :
    readQuoted q (q :: rest) = some ([], rest) := by
  cases rest with
  | nil => simp [readQuoted]
  | cons e u =>
    have he : e ≠ q := fun he => h (congrArg some he)
    simp [readQuoted, he]

/-- A closing character in the text is written twice and read as one, wherever it stands, so the
reader gets past a run of them in step with the writer. -/
theorem readQuoted_doubled_append (h : rest.head? ≠ some q) (t : Text) :
    readQuoted q (doubled q t ++ q :: rest) = some (t, rest) := by
  induction t with
  | nil => exact readQuoted_closing h
  | cons c t ih =>
    rw [doubled_cons]
    split
    · rename_i hc
      rw [List.cons_append, List.cons_append, readQuoted_doubled, ih, hc]
      rfl
    · rename_i hc
      rw [List.cons_append, readQuoted_char hc, ih]
      rfl

theorem exists_of_map_cons {found : Option (Text × Text)}
    (h : found.map (Prod.map (c :: ·) id) = some (content, rest)) :
    ∃ t, found = some (t, rest) ∧ content = c :: t := by
  obtain ⟨⟨t, after⟩, hfound, hpair⟩ := Option.map_eq_some_iff.1 h
  cases hpair
  exact ⟨t, hfound, rfl⟩

/-- What is read is what was written: only the content with its closing characters doubled reads as
this content. -/
theorem eq_doubled_of_readQuoted (h : readQuoted q t = some (content, rest)) :
    t = doubled q content ++ q :: rest ∧ rest.head? ≠ some q := by
  fun_induction readQuoted q t generalizing content with
  | case1 => cases h
  | case2 =>
    cases h
    exact ⟨rfl, nofun⟩
  | case3 u ih =>
    obtain ⟨body, hbody, rfl⟩ := exists_of_map_cons h
    obtain ⟨rfl, hrest⟩ := ih hbody
    rw [doubled_cons, if_pos rfl]
    exact ⟨rfl, hrest⟩
  | case4 e u he =>
    cases h
    exact ⟨rfl, fun hhead => he (Option.some.inj hhead)⟩
  | case5 c t hc ih =>
    obtain ⟨body, hbody, rfl⟩ := exists_of_map_cons h
    obtain ⟨rfl, hrest⟩ := ih hbody
    rw [doubled_cons, if_neg hc]
    exact ⟨rfl, hrest⟩

/-! ## Identifiers -/

namespace Dialect

/-- Reads a quoted identifier from its opening character on. -/
def readIdentifier (d : Dialect) : Text → Option (String × Text)
  | [] => none
  | c :: t =>
    if c = d.quotes.1 then (readQuoted d.quotes.2 t).map (Prod.map String.ofList id) else none

theorem readIdentifier_quoteIdentifier_append (h : rest.head? ≠ some d.quotes.2) (name : String) :
    d.readIdentifier (d.quoteIdentifier name ++ rest) = some (name, rest) := by
  have hread : readQuoted d.quotes.2 (doubled d.quotes.2 name.toList ++ d.quotes.2 :: rest) =
      some (name.toList, rest) := readQuoted_doubled_append h name.toList
  simp [quoteIdentifier, readIdentifier, hread]

/-- The texts that begin with a quoted identifier, and what it is. -/
theorem readIdentifier_eq_some_iff : d.readIdentifier t = some (name, rest) ↔
    t = d.quoteIdentifier name ++ rest ∧ rest.head? ≠ some d.quotes.2 := by
  constructor
  · intro h
    cases t with
    | nil => cases h
    | cons c t =>
      rw [readIdentifier] at h
      split at h
      · rename_i hc
        obtain ⟨⟨body, after⟩, hbody, hread⟩ := Option.map_eq_some_iff.1 h
        cases hread
        obtain ⟨rfl, hrest⟩ := eq_doubled_of_readQuoted hbody
        exact ⟨by simp [quoteIdentifier, hc], hrest⟩
      · cases h
  · rintro ⟨rfl, hrest⟩
    exact readIdentifier_quoteIdentifier_append hrest name

theorem readIdentifier_quoteIdentifier (d : Dialect) (name : String) :
    d.readIdentifier (d.quoteIdentifier name) = some (name, []) :=
  readIdentifier_eq_some_iff.2 ⟨(List.append_nil _).symm, nofun⟩

/-- Where a text begins with a quoted identifier, the identifier and the rest are determined. -/
theorem quoteIdentifier_append_inj (ha : a.head? ≠ some d.quotes.2) (hb : b.head? ≠ some d.quotes.2)
    (h : d.quoteIdentifier name ++ a = d.quoteIdentifier other ++ b) : name = other ∧ a = b := by
  have hread := readIdentifier_quoteIdentifier_append ha name
  rw [h, readIdentifier_quoteIdentifier_append hb] at hread
  cases hread
  exact ⟨rfl, rfl⟩

theorem quoteIdentifier_inj (h : d.quoteIdentifier name = d.quoteIdentifier other) :
    name = other := by
  have hread := d.readIdentifier_quoteIdentifier name
  rw [h, readIdentifier_quoteIdentifier] at hread
  cases hread
  rfl

/-- At a proper part of a quoted identifier, unless a closing character comes next, the quotes are
still open. -/
theorem readIdentifier_eq_none_of_append (h : d.quoteIdentifier name = t ++ rest) (hne : rest ≠ [])
    (hrest : rest.head? ≠ some d.quotes.2) : d.readIdentifier t = none := by
  cases hread : d.readIdentifier t with
  | none => rfl
  | some found =>
    obtain ⟨other, after⟩ := found
    obtain ⟨rfl, hafter⟩ := readIdentifier_eq_some_iff.1 hread
    have hboth : (after ++ rest).head? ≠ some d.quotes.2 := by
      cases after with
      | nil => exact hrest
      | cons e u => exact hafter
    have hsame : d.quoteIdentifier name ++ [] = d.quoteIdentifier other ++ (after ++ rest) := by
      rw [List.append_nil, h, List.append_assoc]
    have hnil : [] = after ++ rest := (quoteIdentifier_append_inj (a := []) nofun hboth hsame).2
    exact absurd (List.append_eq_nil_iff.1 hnil.symm).2 hne

/-- A quoted identifier is read back up to its last character. Hence no two identifiers are quoted
alike, and an identifier never ends its own quotes: they are open at each earlier place where the
next character is not a closing one. -/
theorem quoteIdentifier_selfDelimiting (d : Dialect) :
    (∀ name : String, d.readIdentifier (d.quoteIdentifier name) = some (name, [])) ∧
      Function.Injective d.quoteIdentifier ∧
      ∀ (name : String) (before after : Text), d.quoteIdentifier name = before ++ after →
        after ≠ [] → after.head? ≠ some d.quotes.2 → d.readIdentifier before = none := by
  refine ⟨d.readIdentifier_quoteIdentifier, ?_, ?_⟩
  · intro name other h
    exact quoteIdentifier_inj h
  · intro name before after h hne hafter
    exact readIdentifier_eq_none_of_append h hne hafter

/-- The brackets inside are doubled, and `[a]]` is not yet closed before the `b`. -/
theorem quoteIdentifier_selfDelimiting_bracket :
    mssql.quoteIdentifier "a]b" = "[a]]".toList ++ "b]".toList ∧
      mssql.readIdentifier "[a]]".toList = none :=
  ⟨by decide,
    (quoteIdentifier_selfDelimiting mssql).2.2 "a]b" _ "b]".toList (by decide) (by decide)
      (by decide)⟩

end Dialect

/-! ## Columns -/

/-- Two quoted columns are written alike only if they are the same column of the same table: the
point between the names is never taken for a point in one of them. -/
theorem Sql.Style.column_inj {style : Sql.Style} {table table' column column' : String}
    (hquote : style.quote = true) (h : style.column table column = style.column table' column') :
    table = table' ∧ column = column' := by
  have hpoint (t : Text) : ('.' :: t).head? ≠ some style.dialect.quotes.2 := by
    cases style.dialect <;> exact nofun
  simp only [Style.column, Style.identifier, hquote, if_true] at h
  obtain ⟨htable, hrest⟩ := Dialect.quoteIdentifier_append_inj (hpoint _) (hpoint _) h
  exact ⟨htable, Dialect.quoteIdentifier_inj (List.cons.inj hrest).2⟩

/-- Without quotes the point is ambiguous. -/
example : (⟨.mysql, false⟩ : Sql.Style).column "a" "b.c" =
    (⟨.mysql, false⟩ : Sql.Style).column "a.b" "c" := rfl

end ObjectQuery
