import ObjectQuery.Proofs.Query.Elements

/-! # Where the conditions of a `FROM` clause stand

Reading a `FROM` clause keeps of its text the names of components and aliases, the `INDEXBY`
columns and the conditions of joins. Each condition is a part of the clause with the right ordinal,
and between them the conditions hold all placeholders of the clause, in order.

* `Segment.Lies`: a segment is a part of a text;
* `ElementWords.read`: one element;
* `FromList.read_spec`: the whole clause. -/

namespace ObjectQuery

variable {s : Scanner} {t u : Text} {part : Text} {ws words rest : List Span} {w : Span}

/-! ## Segments -/

/-- The ordinals of the placeholders in a segment. -/
def Segment.ordinals (s : Scanner) (g : Segment) : List Nat :=
  List.range' g.firstParam (s.count g.text)

/-- The segment is a part of a text before which `base` placeholders stand. -/
def Segment.Lies (s : Scanner) (base : Nat) (t : Text) (g : Segment) : Prop :=
  ∃ pos param, s.Stands t pos param g.text ∧ g.firstParam = base + param

theorem Segment.Lies.trans {base : Nat} {g g' : Segment} (h : g.Lies s base t)
    (h' : g'.Lies s g.firstParam g.text) : g'.Lies s base t := by
  obtain ⟨pos, param, hs, hp⟩ := h
  obtain ⟨pos', param', hs', hp'⟩ := h'
  exact ⟨_, _, hs.trans hs', by rw [hp', hp, Nat.add_assoc]⟩

namespace Scanner

theorem Stands.take_add {pos param k : Nat} (h : s.Stands t pos param u) (hk : s.Cut u k) :
    s.count (t.take (pos + k)) = param + s.before u k := by
  obtain ⟨-, l, r, rfl, rfl, hl, rfl⟩ := h
  rw [List.append_assoc, List.take_length_add_append, List.take_append_of_le_length hk.le_length,
    count_append hl]
  rfl

theorem ordinals_of_tame (h : Tame (w.slice t)) : s.ordinals t w = [] := by
  rw [ordinals, count_eq_zero h.not_mem]; rfl

theorem flatMap_ordinals_of_tame (h : ∀ w ∈ ws, Tame (w.slice t)) :
    ws.flatMap (s.ordinals t) = [] :=
  List.flatMap_eq_nil_iff.2 fun w hw => ordinals_of_tame (h w hw)

end Scanner

/-! ## The elements of a part -/

/-- Words without effect on placeholders. -/
def TameWords (part : Text) (ws : List Span) : Prop := ∀ w ∈ ws, Tame (w.slice part)

theorem TameWords.cons (hw : Tame (w.slice part)) (h : TameWords part ws) :
    TameWords part (w :: ws) :=
  List.forall_mem_cons.2 ⟨hw, h⟩

theorem Introduces.tame {kind : JoinKind} (h : Introduces part ws kind) : TameWords part ws := by
  cases h with
  | join hw => exact .cons (Text.tame_of_isWord hw (by decide)) nofun
  | leftJoin hv hw | innerJoin hv hw =>
    exact .cons (Text.tame_of_isWord hv (by decide))
      (.cons (Text.tame_of_isWord hw (by decide)) nofun)

/-- Of the words of a part, only keywords are in none of its elements. -/
theorem Divided.flatMap {α : Type} {f : Span → List α} (hf : ∀ w, Tame (w.slice part) → f w = [])
    {first : List Span} {joins : List (JoinKind × List Span)} (h : Divided part ws first joins) :
    ws.flatMap f = first.flatMap f ++ joins.flatMap fun e => e.2.flatMap f := by
  induction h with
  | nil => rfl
  | word _ _ ih => rw [List.flatMap_cons, ih, List.flatMap_cons, List.append_assoc]
  | join hkw _ ih =>
    rw [List.flatMap_append, List.flatMap_eq_nil_iff.2 fun w hw => hf w (hkw.tame w hw), ih]
    rfl

/-! ## One element -/

/-- The names of a source are identifiers. -/
structure Source.Named (src : Source) : Prop where
  path_ne_nil : src.path ≠ []
  path : ∀ n ∈ src.path, Text.isIdentifier n.toList = true
  givenAlias : ∀ n ∈ src.givenAlias, Text.isIdentifier n.toList = true

theorem Source.Named.effectiveAlias {src : Source} (h : src.Named) :
    Text.isIdentifier src.effectiveAlias.toList = true := by
  simp only [Source.effectiveAlias]
  cases hg : src.givenAlias with
  | some n => exact h.givenAlias n hg
  | none =>
    rw [Option.getD_none, List.getLastD_eq_getLast?, List.getLast?_eq_some_getLast h.path_ne_nil]
    exact h.path _ (List.getLast_mem _)

theorem AliasWords.tame {name : Option String} (h : AliasWords part ws name) :
    TameWords part ws ∧ ∀ n ∈ name, Text.isIdentifier n.toList = true := by
  cases h with
  | none => exact ⟨nofun, nofun⟩
  | bare hw =>
    refine ⟨.cons (Text.tame_of_isIdentifier hw) nofun, ?_⟩
    rintro n ⟨⟩
    rwa [String.toList_ofList]
  | introduced hv hw =>
    refine ⟨.cons (Text.tame_of_isWord hv (by decide))
      (.cons (Text.tame_of_isIdentifier hw) nofun), ?_⟩
    rintro n ⟨⟩
    rwa [String.toList_ofList]

theorem IndexWords.tame {column : Option Text} (h : IndexWords part ws column)
    (hx : ∀ x ∈ column, Tame x) : TameWords part ws := by
  cases h with
  | none => exact nofun
  | some hv => exact .cons (Text.tame_of_isWord hv (by decide)) (.cons (hx _ rfl) nofun)

section
variable {p : Part} {param : Nat} {join : Option JoinKind} {before : Text} {c : Option Condition}

/-- The ordinals of the placeholders in words of a part before which `param` placeholders of its
clause stand. -/
def Part.ordinals (s : Scanner) (p : Part) (param : Nat) (ws : List Span) : List Nat :=
  (ws.flatMap (s.ordinals p.text)).map (p.segment.firstParam + param + ·)

theorem Part.ordinals_append (ws ws' : List Span) :
    p.ordinals s param (ws ++ ws') = p.ordinals s param ws ++ p.ordinals s param ws' := by
  simp [Part.ordinals]

theorem Part.ordinals_of_tame (h : TameWords p.text ws) : p.ordinals s param ws = [] := by
  rw [Part.ordinals, Scanner.flatMap_ordinals_of_tame h]; rfl

/-- A condition has the placeholders of its words. -/
theorem ConditionWords.lies (hbefore : s.placeholders before = .ok p.segment.firstParam)
    (hp : s.Stands p.segment.text p.start param p.text) (hrun : s.Run p.text ws)
    (h : ConditionWords s before p ws c) :
    p.ordinals s param ws = c.toList.flatMap (·.segment.ordinals s) ∧
      ∀ k ∈ c, k.segment.Lies s p.segment.firstParam p.segment.text := by
  cases h with
  | none => exact ⟨rfl, nofun⟩
  | @some kind v first last ws hv _ hlast =>
    -- the condition is the stretch of text that its words cover
    have hcover : s.Run p.text (first :: ws) := hrun.of_isInfix (List.suffix_cons v _).isInfix
    obtain ⟨hstart, hstop, hle, hord⟩ := hcover.cover hlast
    have hparam : s.count (before ++ p.segment.text.take (p.start + first.start)) =
        p.segment.firstParam + (param + s.before p.text first.start) := by
      rw [count_before hbefore, hp.take_add hstart]
    have htame : Tame (v.slice p.text) := Text.tame_of_isWord hv (by cases kind <;> decide)
    refine ⟨?_, ?_⟩
    · rw [Part.ordinals, List.flatMap_cons, hord, Scanner.ordinals_of_tame htame, List.nil_append]
      simp only [Option.toList, List.flatMap_cons, List.flatMap_nil, List.append_nil,
        Segment.ordinals, Scanner.ordinals, hparam]
      rw [List.map_add_range', Nat.add_assoc]
    · rintro k ⟨⟩
      exact ⟨_, _, hp.trans (hstart.stands hstop hle), hparam⟩

/-- What is known of an element with the given words. -/
structure ElementRead (s : Scanner) (p : Part) (param : Nat) (join : Option JoinKind)
    (words : List Span) (src : Source) (c : Option Condition) : Prop where
  named : src.Named
  root : join = none → src.path.length = 1 ∧ c = none
  joined : join ≠ none → 2 ≤ src.path.length
  lies : ∀ k ∈ c, k.segment.Lies s p.segment.firstParam p.segment.text
  ordinals : (∀ x ∈ src.indexBy, Tame x) →
    p.ordinals s param words = c.toList.flatMap (·.segment.ordinals s)

theorem ElementWords.read {src : Source}
    (hbefore : s.placeholders before = .ok p.segment.firstParam)
    (hp : s.Stands p.segment.text p.start param p.text) (hrun : s.Run p.text words)
    (h : ElementWords s before p words src c)
    (hroot : join = none → src.path.length = 1 ∧ c = none)
    (hjoined : join ≠ none → 2 ≤ src.path.length) : ElementRead s p param join words src c := by
  obtain @⟨w, ws, ws', ws'', names, name, c, column, hne, hnames, hpath, ha, hc, hi⟩ := h
  obtain ⟨halias, hnamed⟩ := ha.tame
  obtain ⟨hord, hlies⟩ := hc.lies hbefore hp (hrun.of_isInfix ⟨w :: ws, ws'', by simp⟩)
  refine ⟨⟨hne, hnames, hnamed⟩, hroot, hjoined, hlies, fun hx => ?_⟩
  have hw : TameWords p.text [w] :=
    .cons (Text.tame_of_path? (Text.path?_eq_some.2 ⟨hne, hnames, hpath⟩)) nofun
  rw [show w :: (ws ++ (ws' ++ ws'')) = [w] ++ (ws ++ (ws' ++ ws'')) from rfl,
    Part.ordinals_append, Part.ordinals_append, Part.ordinals_append, Part.ordinals_of_tame hw,
    Part.ordinals_of_tame halias, Part.ordinals_of_tame (hi.tame hx), hord, List.nil_append,
    List.nil_append, List.append_nil]

end

/-! ## The clause -/

/-- The ordinals of the placeholders in the condition of a join. -/
def Joined.ordinals (s : Scanner) (j : Joined) : List Nat :=
  j.condition.toList.flatMap (·.segment.ordinals s)

/-- The ordinals of the placeholders in the conditions of a `FROM` clause. -/
def FromList.ordinals (s : Scanner) (f : FromList) : List Nat := f.joins.flatMap (·.ordinals s)

/-- The `INDEXBY` column of a source is tame, if it has one. -/
def Source.TameIndex (src : Source) : Prop := ∀ x ∈ src.indexBy, Tame x

/-- What is known of a join that was read from a clause. -/
structure Joined.Read (s : Scanner) (g : Segment) (j : Joined) : Prop where
  named : j.source.Named
  relation : 2 ≤ j.source.path.length
  lies : ∀ k ∈ j.condition, k.segment.Lies s g.firstParam g.text

section
variable {g : Segment} {p : Part} {param : Nat} {span : Span} {js : List Joined} {before : Text}

/-- A part of a clause stands in it with the placeholders of its words. -/
theorem Segment.part_stands (hstart : s.Cut g.text span.start) (hstop : s.Cut g.text span.stop)
    (hle : span.start ≤ span.stop) (hwords : s.wordSpans (g.part span).text = .ok words) :
    ∃ param, s.Stands g.text (g.part span).start param (g.part span).text ∧
      s.Run (g.part span).text words ∧ (g.part span).ordinals s param words =
        (s.ordinals g.text span).map (g.firstParam + ·) := by
  obtain ⟨hle', hstart', hstop', -⟩ := hstart.trimmed hstop hle
  refine ⟨_, hstart'.stands hstop' hle', Scanner.wordSpans_run hwords, ?_⟩
  obtain ⟨-, hbetween⟩ := Scanner.wordSpans_between hwords
  rw [Part.ordinals, (hbetween.ordinals (fun _ => Scanner.Blank.neutral) .zero).2,
    Scanner.ordinals_all, ← hstart.ordinals_trimmed hstop hle, Scanner.ordinals,
    List.map_add_range', List.map_add_range', Nat.add_zero]
  rfl

theorem joins_read {es : List (JoinKind × List Span)}
    (hbefore : s.placeholders before = .ok p.segment.firstParam)
    (hp : s.Stands p.segment.text p.start param p.text) (hes : ∀ e ∈ es, s.Run p.text e.2)
    (h : List.Forall₂ (JoinWords s before p) es js) :
    (∀ j ∈ js, j.Read s p.segment) ∧ ((∀ j ∈ js, j.source.TameIndex) →
      p.ordinals s param (es.flatMap (·.2)) = js.flatMap (·.ordinals s)) := by
  induction h with
  | nil => exact ⟨nofun, fun _ => rfl⟩
  | @cons e j es js hj _ ih =>
    obtain ⟨he, hes⟩ := List.forall_mem_cons.1 hes
    obtain ⟨ih1, ih2⟩ := ih hes
    have hread : ElementRead s p param (some e.1) e.2 j.source j.condition :=
      hj.element.read hbefore hp he nofun fun _ => hj.relation
    refine ⟨List.forall_mem_cons.2 ⟨⟨hread.named, hj.relation, hread.lies⟩, ih1⟩, fun ht => ?_⟩
    obtain ⟨htj, ht⟩ := List.forall_mem_cons.1 ht
    rw [List.flatMap_cons, Part.ordinals_append, List.flatMap_cons, ih2 ht, hread.ordinals htj]
    rfl

theorem Divided.run {first : List Span} {joins : List (JoinKind × List Span)}
    (h : Divided p.text words first joins) (hrun : s.Run p.text words) :
    s.Run p.text first ∧ ∀ e ∈ joins, s.Run p.text e.2 := by
  obtain ⟨hfirst, hjoins⟩ := h.isInfix
  exact ⟨hrun.of_isInfix hfirst.isInfix, fun e he => hrun.of_isInfix (hjoins e he)⟩

theorem Divided.ordinals {first : List Span} {joins : List (JoinKind × List Span)}
    (h : Divided p.text words first joins) : p.ordinals s param words =
      p.ordinals s param first ++ p.ordinals s param (joins.flatMap (·.2)) := by
  rw [Part.ordinals, h.flatMap fun _ => Scanner.ordinals_of_tame, List.map_append, Part.ordinals,
    Part.ordinals, List.flatMap_assoc]

theorem LaterWords.read (hbefore : s.placeholders before = .ok g.firstParam)
    (hstart : s.Cut g.text span.start) (hstop : s.Cut g.text span.stop)
    (hle : span.start ≤ span.stop) (h : LaterWords s before g span js) :
    (∀ j ∈ js, j.Read s g) ∧ ((∀ j ∈ js, j.source.TameIndex) →
      (s.ordinals g.text span).map (g.firstParam + ·) = js.flatMap (·.ordinals s)) := by
  obtain ⟨first, joins, ⟨words, hwords, hdivided⟩, hjs⟩ := h
  obtain ⟨param, hp, hrun, hord⟩ := Segment.part_stands hstart hstop hle hwords
  obtain ⟨hfirst, hjoins⟩ := hdivided.run hrun
  have hall : ∀ e ∈ (JoinKind.left, first) :: joins, s.Run (g.part span).text e.2 :=
    List.forall_mem_cons.2 ⟨hfirst, hjoins⟩
  obtain ⟨h1, h2⟩ := joins_read hbefore hp hall hjs
  refine ⟨h1, fun ht => ?_⟩
  rw [← hord, hdivided.ordinals, ← h2 ht, List.flatMap_cons, Part.ordinals_append]

theorem later_read {spans : List Span} {later : List (List Joined)}
    (hbefore : s.placeholders before = .ok g.firstParam)
    (hspans : ∀ w ∈ spans, w.start ≤ w.stop ∧ s.Cut g.text w.start ∧ s.Cut g.text w.stop)
    (h : List.Forall₂ (LaterWords s before g) spans later) :
    (∀ j ∈ later.flatten, j.Read s g) ∧ ((∀ j ∈ later.flatten, j.source.TameIndex) →
      (spans.flatMap (s.ordinals g.text)).map (g.firstParam + ·) =
        later.flatten.flatMap (·.ordinals s)) := by
  induction h with
  | nil => exact ⟨nofun, fun _ => rfl⟩
  | cons hj _ ih =>
    obtain ⟨⟨hle, hstart, hstop⟩, hspans⟩ := List.forall_mem_cons.1 hspans
    obtain ⟨ih1, ih2⟩ := ih hspans
    obtain ⟨h3, h4⟩ := hj.read hbefore hstart hstop hle
    refine ⟨fun j hj => ?_, fun ht => ?_⟩
    · rw [List.flatten_cons, List.mem_append] at hj
      exact hj.elim (h3 j) (ih1 j)
    · rw [List.flatten_cons] at ht ⊢
      rw [List.flatMap_cons, List.map_append, List.flatMap_append,
        h4 fun j hj => ht j (List.mem_append_left _ hj),
        ih2 fun j hj => ht j (List.mem_append_right _ hj)]

/-- The joins and conditions read from a `FROM` clause. -/
structure FromList.Read (s : Scanner) (g : Segment) (f : FromList) : Prop where
  root : f.root.Named
  component : f.root.path.length = 1
  joins : ∀ j ∈ f.joins, j.Read s g
  ordinals : f.root.TameIndex → (∀ j ∈ f.joins, j.source.TameIndex) → f.ordinals s = g.ordinals s

/-- A clause may come after any number of placeholders. -/
theorem exists_before (s : Scanner) (n : Nat) : ∃ before, s.placeholders before = .ok n := by
  induction n with
  | zero => exact ⟨[], rfl⟩
  | succ n ih =>
    obtain ⟨before, h⟩ := ih
    obtain ⟨hb, hcount⟩ := Scanner.placeholders_eq_ok.1 h
    have hq : s.Balanced ['?'] := Scanner.balanced_plain (by simp [IsPlain, isQuote])
    refine ⟨'?' :: before, Scanner.placeholders_eq_ok.2 ⟨hq.append hb, ?_⟩⟩
    rw [← List.singleton_append, Scanner.count_append hq.run, hcount, Nat.add_comm]
    rfl

theorem FromList.read_spec {f : FromList} (h : FromList.read s g = .ok f) : f.Read s g := by
  have hcomma : s.Neutral [','] :=
    Tame.neutral (by simp [Tame, IsPlain, isQuote])
  obtain ⟨before, hbefore⟩ := exists_before s g.firstParam
  obtain @⟨span, spans, first, joins, root, js, later, hspans, ⟨words, hwords, hdivided⟩, hroot,
    hname, hjs, hlater⟩ := FromList.fromWords hbefore h
  obtain ⟨-, hbetween⟩ := Scanner.splitSpans_between (List.cons_ne_nil _ _) isPlain_comma hspans
  obtain ⟨-, hall⟩ := hbetween.ordinals (fun _ => Scanner.Gap.neutral hcomma) .zero
  obtain ⟨⟨hle, hstart, hstop⟩, hmem⟩ := List.forall_mem_cons.1 fun w hw => hbetween.mem hw
  obtain ⟨param, hp, hrun, hord⟩ := Segment.part_stands hstart hstop hle hwords
  obtain ⟨hfirst, hjoins⟩ := hdivided.run hrun
  have hread : ElementRead s (g.part span) param none first root none :=
    hroot.read hbefore hp hfirst (fun _ => ⟨hname, rfl⟩) fun hne => absurd rfl hne
  obtain ⟨hjs1, hjs2⟩ := joins_read hbefore hp hjoins hjs
  obtain ⟨hl1, hl2⟩ := later_read hbefore hmem hlater
  refine ⟨hread.named, hname, fun j hj => ?_, fun htr htj => ?_⟩
  · exact (List.mem_append.1 hj).elim (hjs1 j) (hl1 j)
  · have hlast := congrArg (List.map (g.firstParam + ·)) hall
    rw [List.flatMap_cons, List.map_append, ← hord,
      hl2 fun j hj => htj j (List.mem_append_right _ hj), hdivided.ordinals,
      hread.ordinals htr, hjs2 fun j hj => htj j (List.mem_append_left _ hj)] at hlast
    rw [FromList.ordinals, List.flatMap_append]
    refine (Eq.trans ?_ hlast).trans ?_
    · simp
    · rw [Scanner.ordinals_all, List.map_add_range']; rfl

end
end ObjectQuery
