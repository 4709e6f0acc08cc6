import ObjectQuery.Proofs.Success
import ObjectQuery.Proofs.Text.Lexemes
import ObjectQuery.Proofs.Text.Words

/-! # What a `FROM` clause is made of

The words of a `FROM` clause, element by element: a path, an alias, a condition and an `INDEXBY`
column, of which all but the path may be missing, and between the elements the words that introduce
joins. A clause is read exactly if its words are of this form, and what is read are its words.

* `AliasWords`, `ConditionWords`, `IndexWords`, `ElementWords`: the words of one element;
* `Divided`: the elements of a part;
* `FromWords`: a clause;
* `readElement_eq_ok`, `elementsFrom_eq_iff`: elements and parts are read by their words;
* `FromList.read_iff_words`: so are whole clauses. -/

namespace ObjectQuery

variable {s : Scanner} {t before path : Text} {ws words rest first kw : List Span} {w v span : Span}
  {clause : Clause} {name : Option String} {names : List String} {column : Option Text}
  {c : Option Condition} {src : Source} {p : Part} {g : Segment} {join : Option JoinKind}
  {kind : JoinKind} {joins : List (JoinKind × List Span)} {j : Joined} {js : List Joined}
  {f : FromList}

/-! ## The form of an element -/

/-- The words of an alias, if there is one, and the name it gives. -/
inductive AliasWords (t : Text) : List Span → Option String → Prop
  | none : AliasWords t [] none
  /-- A name by itself, which must be no keyword. -/
  | bare {w : Span} (hw : (w.slice t).isIdentifier = true)
    (hfree : ∀ k ∈ ["ON", "WITH", "INDEXBY", "AS"], (w.slice t).isWord k = false) :
    AliasWords t [w] (some (String.ofList (w.slice t)))
  | introduced {v w : Span} (hv : (v.slice t).isWord "AS" = true)
    (hw : (w.slice t).isIdentifier = true) :
    AliasWords t [v, w] (some (String.ofList (w.slice t)))

/-- The word that introduces a condition. -/
def ConditionKind.word : ConditionKind → String
  | replacing => "ON"
  | extending => "WITH"

/-- The words of a condition, if there is one. Its text goes from its first to its last word, with
the placeholders before it in a query of which `before` comes before the clause. -/
inductive ConditionWords (s : Scanner) (before : Text) (p : Part) :
    List Span → Option Condition → Prop
  | none : ConditionWords s before p [] none
  | some {kind : ConditionKind} {v first last : Span} {ws : List Span}
    (hv : (v.slice p.text).isWord kind.word = true)
    (hindex : ∀ w ∈ first :: ws, (w.slice p.text).isWord "INDEXBY" = false)
    (hlast : (first :: ws).getLast? = some last) :
    ConditionWords s before p (v :: first :: ws)
      (some ⟨kind, (Span.mk first.start last.stop).slice p.text,
        s.count (before ++ p.segment.text.take (p.start + first.start))⟩)

/-- The words of an `INDEXBY` column, if there is one. -/
inductive IndexWords (t : Text) : List Span → Option Text → Prop
  | none : IndexWords t [] none
  | some {v w : Span} (hv : (v.slice t).isWord "INDEXBY" = true) :
    IndexWords t [v, w] (some (w.slice t))

/-- The words of an element. -/
inductive ElementWords (s : Scanner) (before : Text) (p : Part) :
    List Span → Source → Option Condition → Prop
  | intro {w : Span} {ws ws' ws'' : List Span} {names : List String} {name : Option String}
    {c : Option Condition} {column : Option Text} (hne : names ≠ [])
    (hnames : ∀ n ∈ names, Text.isIdentifier n.toList = true)
    (hpath : w.slice p.text = ['.'].intercalate (names.map String.toList))
    (ha : AliasWords p.text ws name) (hc : ConditionWords s before p ws' c)
    (hi : IndexWords p.text ws'' column) :
    ElementWords s before p (w :: (ws ++ (ws' ++ ws''))) ⟨names, name, column⟩ c

/-! ## The form of a clause -/

/-- The words that introduce a join. -/
inductive Introduces (t : Text) : List Span → JoinKind → Prop
  | join {w : Span} (hw : (w.slice t).isWord "JOIN" = true) : Introduces t [w] .left
  | leftJoin {v w : Span} (hv : (v.slice t).isWord "LEFT" = true)
    (hw : (w.slice t).isWord "JOIN" = true) : Introduces t [v, w] .left
  | innerJoin {v w : Span} (hv : (v.slice t).isWord "INNER" = true)
    (hw : (w.slice t).isWord "JOIN" = true) : Introduces t [v, w] .inner

/-- The first words introduce a join. -/
def BeginsJoin (t : Text) (ws : List Span) : Prop := ∃ kw kind, Introduces t kw kind ∧ kw <+: ws

/-- The words of a part, divided where joins are introduced: those of the first element, and those
of each join. -/
inductive Divided (t : Text) : List Span → List Span → List (JoinKind × List Span) → Prop
  | nil : Divided t [] [] []
  | word {w : Span} {ws first : List Span} {joins : List (JoinKind × List Span)}
    (hw : ¬ BeginsJoin t (w :: ws)) (h : Divided t ws first joins) :
    Divided t (w :: ws) (w :: first) joins
  | join {kw ws first : List Span} {kind : JoinKind} {joins : List (JoinKind × List Span)}
    (hkw : Introduces t kw kind) (h : Divided t ws first joins) :
    Divided t (kw ++ ws) [] ((kind, first) :: joins)

/-- The part of a clause that a span between commas stands for. -/
def Segment.part (g : Segment) (span : Span) : Part :=
  ⟨(span.trimmed g.text).slice g.text, (span.trimmed g.text).start, g⟩

/-- The words of a part of a clause. -/
def PartWords (s : Scanner) (p : Part) (first : List Span) (joins : List (JoinKind × List Span)) :
    Prop :=
  ∃ words, s.wordSpans p.text = .ok words ∧ Divided p.text words first joins

/-- The words of a join, without those that introduce it. -/
structure JoinWords (s : Scanner) (before : Text) (p : Part) (e : JoinKind × List Span)
    (j : Joined) : Prop where
  kind : j.kind = e.1
  element : ElementWords s before p e.2 j.source j.condition
  relation : 2 ≤ j.source.path.length

/-- The words of a part behind a comma, which begins with a left join. -/
def LaterWords (s : Scanner) (before : Text) (g : Segment) (span : Span) (js : List Joined) :
    Prop :=
  ∃ first joins, PartWords s (g.part span) first joins ∧
    List.Forall₂ (JoinWords s before (g.part span)) ((.left, first) :: joins) js

/-- The words of a clause in a query of which `before` comes before it. -/
inductive FromWords (s : Scanner) (before : Text) (g : Segment) : FromList → Prop
  | intro {span : Span} {spans first : List Span} {joins : List (JoinKind × List Span)}
    {root : Source} {js : List Joined} {later : List (List Joined)}
    (hparts : s.splitSpans g.text [','] = .ok (span :: spans))
    (hwords : PartWords s (g.part span) first joins)
    (hroot : ElementWords s before (g.part span) first root none) (hname : root.path.length = 1)
    (hjoins : List.Forall₂ (JoinWords s before (g.part span)) joins js)
    (hlater : List.Forall₂ (LaterWords s before g) spans later) :
    FromWords s before g ⟨root, js ++ later.flatten⟩

/-! ## Paths -/

theorem readPath_eq_ok {word : Text} : readPath clause join word = .ok names ↔
    word.path? = some names ∧ (join = none → names.length = 1) ∧
      (join ≠ none → 2 ≤ names.length) := by
  constructor
  · intro h
    simp only [readPath] at h
    split at h
    · cases h
    · rename_i path hpath
      cases join with
      | none =>
        simp only at h
        split at h
        · rename_i hlen
          cases h
          exact ⟨hpath, fun _ => hlen, fun hne => absurd rfl hne⟩
        · cases h
      | some kind =>
        simp only at h
        split at h
        · cases h
        · rename_i hlen
          cases h
          exact ⟨hpath, nofun, fun _ => Nat.le_of_not_lt hlen⟩
  · rintro ⟨hpath, hroot, hjoin⟩
    rw [readPath, hpath]
    cases join with
    | none => exact if_pos (hroot rfl)
    | some kind => exact if_neg (Nat.not_lt.2 (hjoin nofun))

/-! ## Aliases, conditions and columns -/

/-- The word begins an alias. -/
def BeginsAlias (word : Text) : Prop :=
  word.isWord "AS" = true ∨ word.isIdentifier = true ∧ isElementKeyword word = false

theorem isElementKeyword_eq_false {word : Text} : isElementKeyword word = false ↔
    ∀ k ∈ ["ON", "WITH", "INDEXBY", "AS"], word.isWord k = false := by
  simp [isElementKeyword, and_assoc]

theorem not_beginsAlias {word : Text} {k : String} (hk : k ∈ ["ON", "WITH", "INDEXBY"])
    (h : word.isWord k = true) : ¬ BeginsAlias word := by
  rintro (has | ⟨-, hfree⟩)
  · have hother : ∀ k ∈ ["ON", "WITH", "INDEXBY"],
        (k.toList.map Char.toLower == "AS".toList.map Char.toLower) = false := by decide
    rw [Text.isWord_ne h (hother k hk)] at has
    cases has
  · rw [isElementKeyword_eq_false.1 hfree k (List.mem_append_left ["AS"] hk)] at h
    cases h

theorem conditionWord?_eq_some {word : Text} {k : ConditionKind} :
    conditionWord? word = some k ↔ word.isWord k.word = true := by
  constructor
  · intro h
    simp only [conditionWord?] at h
    split at h
    · cases h
      assumption
    · split at h
      · cases h
        assumption
      · cases h
  · intro h
    cases k with
    | replacing => exact if_pos h
    | extending =>
      have hno : word.isWord "ON" = false := Text.isWord_ne h (by decide)
      rw [conditionWord?, hno]
      exact if_pos h

/-- An alias is read if the words begin with one. -/
theorem readAlias_eq_ok : readAlias clause t path words = .ok (name, rest) ↔
    ∃ ws, words = ws ++ rest ∧ AliasWords t ws name ∧
      (name = none → ∀ w ∈ rest.head?, ¬ BeginsAlias (w.slice t)) := by
  constructor
  · intro h
    cases words with
    | nil =>
      cases h
      exact ⟨[], rfl, .none, nofun⟩
    | cons w words =>
      simp only [readAlias] at h
      split at h
      · rename_i hw
        cases words with
        | nil => cases h
        | cons v words =>
          simp only at h
          split at h
          · rename_i hv
            cases h
            exact ⟨[w, v], rfl, .introduced hw hv, nofun⟩
          · cases h
      · rename_i has
        split at h
        · rename_i hbare
          cases h
          rw [Bool.and_eq_true, Bool.not_eq_true'] at hbare
          exact ⟨[w], rfl, .bare hbare.1 (isElementKeyword_eq_false.1 hbare.2), nofun⟩
        · rename_i hbare
          cases h
          refine ⟨[], rfl, .none, fun _ => ?_⟩
          rintro _ ⟨⟩ (hw | hw)
          · exact has hw
          · rw [Bool.and_eq_true, Bool.not_eq_true'] at hbare
            exact hbare hw
  · rintro ⟨ws, rfl, h, hnone⟩
    cases h with
    | none =>
      cases rest with
      | nil => rfl
      | cons w rest =>
        obtain ⟨has, hbare⟩ := not_or.1 (hnone rfl w rfl)
        rw [← Bool.not_eq_true', ← Bool.and_eq_true] at hbare
        exact (if_neg has).trans (if_neg hbare)
    | bare hw hfree =>
      have has := hfree "AS" (by decide)
      have hkeyword := isElementKeyword_eq_false.2 hfree
      simp only [List.cons_append, List.nil_append, readAlias, has, hw, hkeyword]
      rfl
    | introduced hv hw =>
      simp only [List.cons_append, List.nil_append, readAlias, hv, hw]
      rfl

theorem span_eq_iff {α : Type} {q : α → Bool} {l as bs : List α} : l.span q = (as, bs) ↔
    l = as ++ bs ∧ (∀ a ∈ as, q a = true) ∧ ∀ b ∈ bs.head?, q b = false := by
  rw [List.span_eq_takeWhile_dropWhile]
  constructor
  · intro h
    obtain ⟨rfl, rfl⟩ := Prod.mk.inj h
    refine ⟨List.takeWhile_append_dropWhile.symm, List.all_eq_true.1 List.all_takeWhile, ?_⟩
    intro b hb
    have hhead := List.head?_dropWhile_not q l
    rw [Option.mem_def.1 hb] at hhead
    simpa using hhead
  · rintro ⟨rfl, has, hbs⟩
    rw [List.takeWhile_append_of_pos has, List.dropWhile_append_of_pos has]
    cases bs with
    | nil => rw [List.takeWhile_nil, List.dropWhile_nil, List.append_nil]
    | cons b bs =>
      have hb := hbs b rfl
      rw [List.takeWhile_cons, List.dropWhile_cons, hb, if_neg Bool.false_ne_true,
        if_neg Bool.false_ne_true, List.append_nil]

/-- Words of a part that begin where nothing is open. -/
def Part.Reached (s : Scanner) (p : Part) (ws : List Span) : Prop :=
  ∀ w ∈ ws, s.Balanced (p.segment.text.take (p.start + w.start))

theorem count_before (hbefore : s.placeholders before = .ok g.firstParam) (u : Text) :
    s.count (before ++ u) = g.firstParam + s.count u := by
  obtain ⟨hb, hcount⟩ := Scanner.placeholders_eq_ok.1 hbefore
  rw [Scanner.count_append hb.run, hcount]

/-- A condition of a join is read if the words begin with one. -/
theorem readCondition_eq_ok (hbefore : s.placeholders before = .ok p.segment.firstParam)
    (hwords : p.Reached s words) : readCondition s clause join p words = .ok (c, rest) ↔
      ∃ ws, words = ws ++ rest ∧ ConditionWords s before p ws c ∧ (join = none → c = none) ∧
        (c = none → ∀ w ∈ rest.head?, conditionWord? (w.slice p.text) = none) ∧
        (c ≠ none → ∀ w ∈ rest.head?, (w.slice p.text).isWord "INDEXBY" = true) := by
  constructor
  · intro h
    cases words with
    | nil =>
      cases h
      exact ⟨[], rfl, .none, fun _ => rfl, nofun, nofun⟩
    | cons w words =>
      simp only [readCondition] at h
      split at h
      · rename_i hno
        cases h
        refine ⟨[], rfl, .none, fun _ => rfl, fun _ => ?_, fun hne => absurd rfl hne⟩
        rintro _ ⟨⟩
        exact hno
      · rename_i kind hkind
        split at h
        · cases h
        · rename_i hjoin
          obtain ⟨⟨cond, rest'⟩, hspan⟩ :
            ∃ e, words.span (fun w => !(w.slice p.text).isWord "INDEXBY") = e := ⟨_, rfl⟩
          rw [hspan] at h
          obtain ⟨rfl, hcond, hstop⟩ := span_eq_iff.1 hspan
          split at h
          · rename_i first more last hfirst hlast
            obtain ⟨n, hn, hres⟩ := Except.bind_eq_ok.1 h
            cases hres
            simp only at hfirst hlast
            subst hfirst
            obtain ⟨-, rfl⟩ := Scanner.placeholders_eq_ok.1 (Except.inClause_eq_ok.1 hn)
            refine ⟨w :: first :: more, rfl, ?_, fun hnone => ?_, nofun,
              fun _ v hv => by simpa using hstop v hv⟩
            · rw [← count_before hbefore]
              exact .some (conditionWord?_eq_some.1 hkind) (by simpa using hcond) hlast
            · rw [hnone] at hjoin
              exact absurd rfl hjoin
          · cases h
  · rintro ⟨ws, rfl, h, hjoin, hnone, hsome⟩
    cases h with
    | none =>
      cases rest with
      | nil => rfl
      | cons w rest =>
        have hno := hnone rfl w rfl
        simp only [List.nil_append, readCondition, hno]
    | @some kind v first last ws hv hindex hlast =>
      have hkind := conditionWord?_eq_some.2 hv
      have hisSome : join.isNone = false := by
        cases join with
        | none => cases hjoin rfl
        | some kind => rfl
      have hspan : (first :: ws ++ rest).span (fun w => !(w.slice p.text).isWord "INDEXBY") =
          (first :: ws, rest) := by
        refine span_eq_iff.2 ⟨rfl, fun w hw => ?_, fun w hw => ?_⟩
        · rw [hindex w hw]
          rfl
        · rw [hsome nofun w hw]
          rfl
      have hcount : s.placeholders (p.segment.text.take (p.start + first.start)) =
          .ok (s.count (p.segment.text.take (p.start + first.start))) :=
        Scanner.placeholders_eq_ok.2 ⟨hwords first (by simp), rfl⟩
      rw [count_before hbefore]
      simp only [List.cons_append, readCondition, hkind, hisSome]
      rw [← List.cons_append, hspan]
      simp only [hlast, hcount]
      rfl

/-- A column is read if the words begin with `INDEXBY`. -/
theorem readIndexBy_eq_ok : readIndexBy t words = .ok (column, rest) ↔
    ∃ ws, words = ws ++ rest ∧ IndexWords t ws column ∧
      (column = none → ∀ w ∈ rest.head?, (w.slice t).isWord "INDEXBY" = false) := by
  constructor
  · intro h
    cases words with
    | nil =>
      cases h
      exact ⟨[], rfl, .none, nofun⟩
    | cons v words =>
      simp only [readIndexBy] at h
      split at h
      · rename_i hv
        cases words with
        | nil => cases h
        | cons w words =>
          cases h
          exact ⟨[v, w], rfl, .some hv, nofun⟩
      · rename_i hv
        cases h
        refine ⟨[], rfl, .none, fun _ => ?_⟩
        rintro _ ⟨⟩
        exact Bool.eq_false_of_not_eq_true hv
  · rintro ⟨ws, rfl, h, hnone⟩
    cases h with
    | none =>
      cases rest with
      | nil => rfl
      | cons w rest =>
        have hno := hnone rfl w rfl
        simp only [List.nil_append, readIndexBy, hno]
        rfl
    | some hv =>
      simp only [List.cons_append, List.nil_append, readIndexBy, hv]
      rfl

/-! ## Elements -/

theorem ConditionWords.head? (h : ConditionWords s before p ws c)
    (hw : w ∈ ws.head?) : ∃ k : ConditionKind, (w.slice p.text).isWord k.word = true := by
  cases h with
  | none => cases hw
  | some hv =>
    cases hw
    exact ⟨_, hv⟩

theorem IndexWords.head? (h : IndexWords t ws column) (hw : w ∈ ws.head?) :
    (w.slice t).isWord "INDEXBY" = true := by
  cases h with
  | none => cases hw
  | some hv =>
    cases hw
    exact hv

theorem conditionWord?_eq_none (h : IndexWords t ws column) (hw : w ∈ ws.head?) :
    conditionWord? (w.slice t) = none := by
  refine Option.eq_none_iff_forall_ne_some.2 fun k hk => ?_
  have hk := conditionWord?_eq_some.1 hk
  rw [Text.isWord_ne (h.head? hw) (by cases k <;> decide)] at hk
  cases hk

/-- No word that may come after an alias begins one. -/
theorem ConditionWords.not_beginsAlias {ws' : List Span} (hc : ConditionWords s before p ws c)
    (hi : IndexWords p.text ws' column) (hw : w ∈ (ws ++ ws').head?) :
    ¬ BeginsAlias (w.slice p.text) := by
  rw [List.head?_append] at hw
  rcases Option.or_eq_some_iff.1 hw with hw | ⟨-, hw⟩
  · obtain ⟨k, hk⟩ := hc.head? hw
    refine ObjectQuery.not_beginsAlias ?_ hk
    cases k <;> decide
  · exact ObjectQuery.not_beginsAlias (by decide) (hi.head? hw)

/-- An element is read exactly if the words are of its form. -/
theorem readElement_eq_ok (hbefore : s.placeholders before = .ok p.segment.firstParam)
    (hwords : p.Reached s words) : readElement s p join words = .ok (src, c) ↔
      ElementWords s before p words src c ∧ (join = none → src.path.length = 1 ∧ c = none) ∧
        (join ≠ none → 2 ≤ src.path.length) := by
  constructor
  · intro h
    cases words with
    | nil => cases h
    | cons w words =>
      obtain ⟨names, hpath, h⟩ := Except.bind_eq_ok.1 h
      obtain ⟨⟨name, rest⟩, hname, h⟩ := Except.bind_eq_ok.1 h
      obtain ⟨⟨c', rest'⟩, hc, h⟩ := Except.bind_eq_ok.1 h
      obtain ⟨⟨column, rest''⟩, hcolumn, hres⟩ := Except.bind_eq_ok.1 h
      obtain ⟨hpath, hroot, hjoin⟩ := readPath_eq_ok.1 hpath
      obtain ⟨hne, hnames, htext⟩ := Text.path?_eq_some.1 hpath
      obtain ⟨ws, rfl, ha, -⟩ := readAlias_eq_ok.1 hname
      have hrest : p.Reached s rest := fun v hv => hwords v (by simp [hv])
      obtain ⟨ws', rfl, hcond, hnone, -⟩ := (readCondition_eq_ok hbefore hrest).1 hc
      obtain ⟨ws'', rfl, hi, -⟩ := readIndexBy_eq_ok.1 hcolumn
      cases rest'' with
      | cons extra _ => cases hres
      | nil =>
        cases hres
        rw [List.append_nil]
        exact ⟨.intro hne hnames htext ha hcond hi, fun hj => ⟨hroot hj, hnone hj⟩, hjoin⟩
  · rintro ⟨@⟨w, ws, ws', ws'', names, name, c, column, hne, hnames, htext, ha, hcond, hi⟩, hroot,
      hjoin⟩
    have hpath := Text.path?_eq_some.2 ⟨hne, hnames, htext⟩
    have hrest : p.Reached s (ws' ++ ws'') := fun v hv =>
      hwords v (List.mem_cons_of_mem w (List.mem_append_right ws hv))
    refine Except.bind_eq_ok.2 ⟨names, readPath_eq_ok.2 ⟨hpath, fun hj => (hroot hj).1, hjoin⟩, ?_⟩
    refine Except.bind_eq_ok.2 ⟨(name, ws' ++ ws''), readAlias_eq_ok.2
      ⟨ws, rfl, ha, fun _ _ => hcond.not_beginsAlias hi⟩, ?_⟩
    refine Except.bind_eq_ok.2 ⟨(c, ws''), (readCondition_eq_ok hbefore hrest).2
      ⟨ws', rfl, hcond, fun hj => (hroot hj).2, fun _ _ => conditionWord?_eq_none hi,
        fun _ _ => hi.head?⟩, ?_⟩
    exact Except.bind_eq_ok.2 ⟨(column, []), readIndexBy_eq_ok.2
      ⟨ws'', (List.append_nil ws'').symm, hi, nofun⟩, rfl⟩

theorem readJoin_eq_ok (hbefore : s.placeholders before = .ok p.segment.firstParam)
    (hwords : p.Reached s words) :
    readJoin s p kind words = .ok j ↔ JoinWords s before p (kind, words) j := by
  rw [readJoin, Except.bind_eq_ok]
  constructor
  · rintro ⟨⟨src, c⟩, h, hj⟩
    cases hj
    obtain ⟨helement, -, hpath⟩ := (readElement_eq_ok hbefore hwords).1 h
    exact ⟨rfl, helement, hpath nofun⟩
  · rintro ⟨hkind, helement, hpath⟩
    refine ⟨(j.source, j.condition), (readElement_eq_ok hbefore hwords).2
      ⟨helement, nofun, fun _ => hpath⟩, ?_⟩
    cases j
    cases hkind
    rfl

/-! ## Joins -/

/-- How the words of a part are divided depends on its first word and the word after it. -/
theorem elementsFrom_cons (w : Span) (ws : List Span) : elementsFrom t (w :: ws) =
    match joinWord? (w.slice t) (ws.head?.map (·.slice t)) with
    | some (kind, two) =>
      let (first, joins) := elementsFrom t (if two then ws.tail else ws)
      ([], (kind, first) :: joins)
    | none =>
      let (first, joins) := elementsFrom t ws
      (w :: first, joins) := by
  cases ws with
  | nil =>
    cases hj : joinWord? (w.slice t) none <;> simp [elementsFrom, hj]
  | cons v ws =>
    rw [elementsFrom, List.head?_cons, Option.map_some]
    match joinWord? (w.slice t) (some (v.slice t)) with
    | none | some (_, true) | some (_, false) => rfl

/-- The words that introduce a join are found; `ws` are the words after them. -/
theorem Introduces.joinWord? (h : Introduces t (w :: kw) kind) (ws : List Span) :
    joinWord? (w.slice t) ((kw ++ ws).head?.map (·.slice t)) = some (kind, !kw.isEmpty) := by
  cases h with
  | join hw => exact if_pos hw
  | leftJoin hv hw =>
    have hno : (w.slice t).isWord "JOIN" = false := Text.isWord_ne hv (by decide)
    simp [ObjectQuery.joinWord?, hno, hv, hw]
  | innerJoin hv hw =>
    have hno : (w.slice t).isWord "JOIN" = false := Text.isWord_ne hv (by decide)
    have hno' : (w.slice t).isWord "LEFT" = false := Text.isWord_ne hv (by decide)
    simp [ObjectQuery.joinWord?, hno, hno', hv, hw]

/-- A join that is found is introduced by the first words. -/
theorem exists_introduces {two : Bool}
    (h : joinWord? (w.slice t) (ws.head?.map (·.slice t)) = some (kind, two)) :
    ∃ kw, Introduces t (w :: kw) kind ∧ ws = kw ++ if two then ws.tail else ws := by
  have hnext (hj : (ws.head?.map (·.slice t)).any (·.isWord "JOIN") = true) :
      ∃ v rest, ws = v :: rest ∧ (v.slice t).isWord "JOIN" = true := by
    cases ws with
    | nil => cases hj
    | cons v rest => exact ⟨v, rest, rfl, hj⟩
  simp only [joinWord?] at h
  split at h
  · rename_i hw
    cases h
    exact ⟨[], .join hw, rfl⟩
  · split at h
    · rename_i hw
      cases h
      rw [Bool.and_eq_true] at hw
      obtain ⟨v, rest, rfl, hv⟩ := hnext hw.2
      exact ⟨[v], .leftJoin hw.1 hv, rfl⟩
    · split at h
      · rename_i hw
        cases h
        rw [Bool.and_eq_true] at hw
        obtain ⟨v, rest, rfl, hv⟩ := hnext hw.2
        exact ⟨[v], .innerJoin hw.1 hv, rfl⟩
      · cases h

theorem Introduces.exists_cons (h : Introduces t kw kind) : ∃ w ws, kw = w :: ws := by
  cases h with
  | join | leftJoin | innerJoin => exact ⟨_, _, rfl⟩

theorem joinWord?_eq_none :
    joinWord? (w.slice t) (ws.head?.map (·.slice t)) = none ↔ ¬ BeginsJoin t (w :: ws) := by
  constructor
  · rintro h ⟨kw, kind, hkw, hpre⟩
    obtain ⟨v, kw, rfl⟩ := hkw.exists_cons
    obtain ⟨rest, hrest⟩ := hpre
    obtain ⟨rfl, rfl⟩ := List.cons.inj hrest
    cases h.symm.trans (hkw.joinWord? rest)
  · intro h
    refine Option.eq_none_iff_forall_ne_some.2 fun ⟨kind, two⟩ hj => h ?_
    obtain ⟨kw, hkw, hws⟩ := exists_introduces hj
    refine ⟨w :: kw, kind, hkw, if two then ws.tail else ws, ?_⟩
    rw [List.cons_append, ← hws]

theorem divided_elementsFrom (t : Text) (words : List Span) :
    Divided t words (elementsFrom t words).1 (elementsFrom t words).2 := by
  induction hn : words.length using Nat.strong_induction_on generalizing words with
  | _ n ih =>
  cases words with
  | nil => exact .nil
  | cons w ws =>
    rw [List.length_cons] at hn
    rw [elementsFrom_cons]
    cases hj : joinWord? (w.slice t) (ws.head?.map (·.slice t)) with
    | none => exact .word (joinWord?_eq_none.1 hj) (ih _ (by omega) ws rfl)
    | some e =>
      obtain ⟨kind, two⟩ := e
      obtain ⟨kw, hkw, hws⟩ := exists_introduces hj
      have hlen : (if two then ws.tail else ws).length < n := by
        have := congrArg List.length hws
        rw [List.length_append] at this
        omega
      have hjoin := Divided.join hkw (ih _ hlen _ rfl)
      rw [List.cons_append, ← hws] at hjoin
      exact hjoin

/-- A part is divided as its words are, and there is no other way to divide them. -/
theorem elementsFrom_eq_iff :
    elementsFrom t words = (first, joins) ↔ Divided t words first joins := by
  constructor
  · intro h
    have hdivided := divided_elementsFrom t words
    rwa [h] at hdivided
  · intro h
    induction h with
    | nil => rfl
    | word hw _ ih => rw [elementsFrom_cons, joinWord?_eq_none.2 hw, ih]
    | @join kw ws first kind joins hkw _ ih =>
      obtain ⟨w, kw, rfl⟩ := hkw.exists_cons
      have hrest : (if !kw.isEmpty then (kw ++ ws).tail else kw ++ ws) = ws := by
        cases hkw <;> rfl
      rw [List.cons_append, elementsFrom_cons, hkw.joinWord? ws]
      simp only [hrest, ih]

/-- The elements of a part are runs of its words. -/
theorem Divided.isInfix (h : Divided t words first joins) :
    first <+: words ∧ ∀ e ∈ joins, e.2 <:+: words := by
  induction h with
  | nil => exact ⟨List.prefix_refl _, nofun⟩
  | @word w ws _ _ _ _ ih =>
    obtain ⟨hfirst, hjoins⟩ := ih
    exact ⟨(List.prefix_cons_inj w).2 hfirst,
      fun e he => (hjoins e he).trans (List.suffix_cons w ws).isInfix⟩
  | @join kw ws _ _ _ _ _ ih =>
    obtain ⟨hfirst, hjoins⟩ := ih
    have hrest : ws <:+: kw ++ ws := (List.suffix_append kw ws).isInfix
    exact ⟨List.nil_prefix, List.forall_mem_cons.2
      ⟨hfirst.isInfix.trans hrest, fun e he => (hjoins e he).trans hrest⟩⟩

/-! ## Parts -/

theorem Part.Reached.mono (h : p.Reached s words) (hws : ws ⊆ words) : p.Reached s ws :=
  fun w hw => h w (hws hw)

theorem Divided.reached (h : Divided p.text words first joins) (hwords : p.Reached s words) :
    p.Reached s first ∧ ∀ e ∈ joins, p.Reached s e.2 := by
  obtain ⟨hfirst, hjoins⟩ := h.isInfix
  exact ⟨hwords.mono hfirst.subset, fun e he => hwords.mono (hjoins e he).subset⟩

theorem Segment.part_reached (hstart : s.Cut g.text span.start) (hstop : s.Cut g.text span.stop)
    (hle : span.start ≤ span.stop) (h : s.wordSpans (g.part span).text = .ok words) :
    (g.part span).Reached s words := by
  intro w hw
  have hcut := ((Scanner.wordSpans_between h).2.mem hw).2.1
  exact ((hstart.trimmed hstop hle).2.1.add hcut).balanced

theorem slice_eq_nil_of_isEmpty (h : span.isEmpty = true) : span.slice t = [] := by
  rw [Span.isEmpty, decide_eq_true_eq] at h
  rw [Span.slice, List.drop_eq_nil_iff, List.length_take]
  omega

theorem readPart_eq_ok : readPart s g span = .ok (p, words) ↔
    (span.trimmed g.text).isEmpty = false ∧ p = g.part span ∧ s.wordSpans p.text = .ok words := by
  simp only [readPart]
  split
  · rename_i hempty
    simp [hempty, malformed]
  · rename_i hempty
    rw [Except.bind_eq_ok, Bool.eq_false_iff]
    constructor
    · rintro ⟨ws, hws, hres⟩
      cases hres
      exact ⟨hempty, rfl, Except.inClause_eq_ok.1 hws⟩
    · rintro ⟨-, rfl, hws⟩
      exact ⟨words, Except.inClause_eq_ok.2 hws, rfl⟩

/-- A part is read if its words are those of elements. -/
theorem readPart_of_partWords (h : PartWords s (g.part span) first joins) (hne : first ≠ []) :
    ∃ words, readPart s g span = .ok (g.part span, words) ∧
      Divided (g.part span).text words first joins := by
  obtain ⟨words, hwords, hdivided⟩ := h
  refine ⟨words, readPart_eq_ok.2 ⟨Bool.eq_false_of_not_eq_true fun hempty => hne ?_, rfl, hwords⟩,
    hdivided⟩
  have htext : (g.part span).text = [] := slice_eq_nil_of_isEmpty hempty
  rw [htext] at hwords
  cases hwords
  exact List.prefix_nil.1 hdivided.isInfix.1

theorem isPlain_comma : ∀ c ∈ [','], IsPlain c := by simp [IsPlain, isQuote]

theorem readJoins_eq_ok (hbefore : s.placeholders before = .ok p.segment.firstParam)
    (hjoins : ∀ e ∈ joins, p.Reached s e.2) :
    joins.mapM (fun e => readJoin s p e.1 e.2) = .ok js ↔
      List.Forall₂ (JoinWords s before p) joins js :=
  Except.mapM_eq_ok.trans
    (forall₂_iff_of_mem fun e he _ => readJoin_eq_ok hbefore (hjoins e he))

theorem ElementWords.ne_nil (h : ElementWords s before p words src c) :
    words ≠ [] := by
  cases h
  exact List.cons_ne_nil _ _

/-- A part behind a comma is read exactly if its words are those of joins. -/
theorem readLaterPart_eq_ok (hbefore : s.placeholders before = .ok g.firstParam)
    (hstart : s.Cut g.text span.start) (hstop : s.Cut g.text span.stop)
    (hle : span.start ≤ span.stop) :
    readLaterPart s g span = .ok js ↔ LaterWords s before g span js := by
  rw [readLaterPart, Except.bind_eq_ok]
  constructor
  · rintro ⟨⟨p, words⟩, hpart, h⟩
    obtain ⟨-, rfl, hwords⟩ := readPart_eq_ok.1 hpart
    have hdivided := divided_elementsFrom (g.part span).text words
    have hreached := hdivided.reached (Segment.part_reached hstart hstop hle hwords)
    exact ⟨_, _, ⟨words, hwords, hdivided⟩,
      (readJoins_eq_ok hbefore (List.forall_mem_cons.2 hreached)).1 h⟩
  · rintro ⟨first, joins, hpart, hall⟩
    have hne : first ≠ [] := by
      obtain _ | ⟨hj, -⟩ := hall
      exact hj.element.ne_nil
    obtain ⟨words, hread, hdivided⟩ := readPart_of_partWords hpart hne
    have hreached := hdivided.reached
      (Segment.part_reached hstart hstop hle (readPart_eq_ok.1 hread).2.2)
    refine ⟨_, hread, ?_⟩
    simp only [elementsFrom_eq_iff.2 hdivided]
    exact (readJoins_eq_ok hbefore (List.forall_mem_cons.2 hreached)).2 hall

/-! ## The clause -/

/-- What is read of a clause are its words. -/
theorem FromList.fromWords (hbefore : s.placeholders before = .ok g.firstParam)
    (h : FromList.read s g = .ok f) : FromWords s before g f := by
  obtain ⟨spans, hspans, h⟩ := Except.bind_eq_ok.1 h
  rw [Except.inClause_eq_ok] at hspans
  obtain ⟨-, hbetween⟩ := Scanner.splitSpans_between (List.cons_ne_nil _ _) isPlain_comma hspans
  cases spans with
  | nil => cases h
  | cons span spans =>
    obtain ⟨⟨p, words⟩, hpart, h⟩ := Except.bind_eq_ok.1 h
    obtain ⟨⟨root, c⟩, hroot, h⟩ := Except.bind_eq_ok.1 h
    obtain ⟨js, hjs, h⟩ := Except.bind_eq_ok.1 h
    obtain ⟨later, hlater, hres⟩ := Except.bind_eq_ok.1 h
    cases hres
    obtain ⟨hle, hstart, hstop⟩ := hbetween.mem List.mem_cons_self
    obtain ⟨-, rfl, hwords⟩ := readPart_eq_ok.1 hpart
    have hdivided := divided_elementsFrom (g.part span).text words
    obtain ⟨hfirst, hjoins⟩ :=
      hdivided.reached (Segment.part_reached hstart hstop hle hwords)
    obtain ⟨helement, hname, -⟩ := (readElement_eq_ok hbefore hfirst).1 hroot
    obtain ⟨hlen, rfl⟩ := hname rfl
    refine .intro hspans ⟨words, hwords, hdivided⟩ helement hlen
      ((readJoins_eq_ok hbefore hjoins).1 hjs) ?_
    refine (forall₂_iff_of_mem fun v hv _ => ?_).1 (Except.mapM_eq_ok.1 hlater)
    obtain ⟨hle, hstart, hstop⟩ := hbetween.mem (List.mem_cons_of_mem _ hv)
    exact readLaterPart_eq_ok hbefore hstart hstop hle

/-- A clause with the words of elements is read. -/
theorem FromWords.read (hbefore : s.placeholders before = .ok g.firstParam)
    (h : FromWords s before g f) : FromList.read s g = .ok f := by
  obtain @⟨span, spans, first, joins, root, js, later, hspans, hpart, hroot, hname, hjs,
    hlater⟩ := h
  obtain ⟨-, hbetween⟩ := Scanner.splitSpans_between (List.cons_ne_nil _ _) isPlain_comma hspans
  obtain ⟨hle, hstart, hstop⟩ := hbetween.mem List.mem_cons_self
  obtain ⟨words, hread, hdivided⟩ := readPart_of_partWords hpart hroot.ne_nil
  obtain ⟨hfirst, hjoins⟩ := hdivided.reached
    (Segment.part_reached hstart hstop hle (readPart_eq_ok.1 hread).2.2)
  refine Except.bind_eq_ok.2 ⟨_, Except.inClause_eq_ok.2 hspans,
    Except.bind_eq_ok.2 ⟨_, hread, ?_⟩⟩
  simp only [elementsFrom_eq_iff.2 hdivided]
  refine Except.bind_eq_ok.2 ⟨(root, none), (readElement_eq_ok hbefore hfirst).2
    ⟨hroot, fun _ => ⟨hname, rfl⟩, fun hne => absurd rfl hne⟩, ?_⟩
  refine Except.bind_eq_ok.2 ⟨js, (readJoins_eq_ok hbefore hjoins).2 hjs, ?_⟩
  refine Except.bind_eq_ok.2 ⟨later, Except.mapM_eq_ok.2 ?_, rfl⟩
  refine (forall₂_iff_of_mem fun v hv _ => ?_).2 hlater
  obtain ⟨hle, hstart, hstop⟩ := hbetween.mem (List.mem_cons_of_mem _ hv)
  exact readLaterPart_eq_ok hbefore hstart hstop hle

/-- A clause is read exactly if its words are those of elements, and what is read are these words.
The text `before` is that of the query before the clause. -/
theorem FromList.read_iff_words (s : Scanner) (before : Text) (g : Segment)
    (hbefore : s.placeholders before = .ok g.firstParam) (f : FromList) :
    FromList.read s g = .ok f ↔ FromWords s before g f :=
  ⟨FromList.fromWords hbefore, FromWords.read hbefore⟩

/-- A keyword in a literal, placeholders before a condition and a join behind a comma. -/
theorem FromList.read_iff_words_joins :
    let before := "SELECT u.*, ? FROM ".toList
    let clause :=
      "User AS u INNER JOIN u.Group g ON (? OR 'JOIN' = ?) INDEXBY id, u.Phone WITH id = ?".toList
    let group : Joined := ⟨.inner, ⟨["u", "Group"], some "g", some "id".toList⟩,
      some ⟨.replacing, "(? OR 'JOIN' = ?)".toList, 1⟩⟩
    let phone : Joined := ⟨.left, ⟨["u", "Phone"], none, none⟩,
      some ⟨.extending, "id = ?".toList, 3⟩⟩
    Scanner.placeholders {} before = .ok 1 ∧
      FromWords {} before ⟨clause, 1⟩ ⟨⟨["User"], some "u", none⟩, [group, phone]⟩ := by
  intro before clause group phone
  have hbefore : Scanner.placeholders {} before = .ok 1 := by decide +kernel
  exact ⟨hbefore, (FromList.read_iff_words {} before ⟨clause, 1⟩ hbefore _).1 (by decide +kernel)⟩

end ObjectQuery
