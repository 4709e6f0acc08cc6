import ObjectQuery.Proofs.Sql.Conditions

/-! # Conditions as formulas

What is written after `ON` is a sequence of tokens, and these are read as a formula: `AND` binds
more tightly than `OR`, and parentheses group. A condition of the query stands between parentheses
and is taken as one token, whose meaning is open; columns have values, none of them null.

* `conditionTokens`, `text_conditionTokens`: the tokens of what is written;
* `Reads`, `Reads.unique`: the formula that tokens are read as, of which there is one at most;
* `Formula.Holds`: the meaning of a formula;
* `Legible`, `Holds`: conditions that are read as conjunctions, and whether they hold;
* `holds_append`: conditions that have to hold together. -/

namespace ObjectQuery
namespace Sql

variable {α : Type} {style : Style}

/-! ## Tokens -/

/-- A word or sign that combines columns, values and conditions. -/
inductive Symbol
  | opening | closing | and | or | equal | unequal

/-- A symbol as it is written, with the blanks around it. -/
def Symbol.text : Symbol → Text
  | opening => "(".toList
  | closing => ")".toList
  | and => " AND ".toList
  | or => " OR ".toList
  | equal => " = ".toList
  | unequal => " != ".toList

theorem Symbol.text_equal : Symbol.equal.text = " = ".toList := rfl

/-- The symbol that a text is. -/
def Symbol.ofText? (t : Text) : Option Symbol :=
  [opening, closing, and, or, equal, unequal].find? (·.text == t)

/-- What is compared. -/
inductive Operand
  | column (qualifier column : String)
  | literal (v : Value)

/-- A token of a condition. -/
inductive Token
  | symbol (s : Symbol)
  | operand (o : Operand)
  /-- A condition between parentheses, as the query gives it. -/
  | given (terms : List Term)
  | other (t : Term)

/-- The tokens of a term. -/
def Term.tokens : Term → List Token
  | .raw t => [match Symbol.ofText? t with
    | some s => .symbol s
    | none => .other (.raw t)]
  | .column qualifier name => [.operand (.column qualifier name)]
  | .equals qualifier name value =>
    [.operand (.column qualifier name), .symbol .equal, .operand (.literal value)]
  | .output name => [.other (.output name)]
  | .param ordinal => [.other (.param ordinal)]
  | .select s => [.other (.select s)]

/-- The tokens of a condition that has to hold together with others. -/
def Conjunct.tokens (k : Conjunct) : List Token :=
  if k.enclosed then [.given k.terms] else k.terms.flatMap Term.tokens

/-- The tokens after `ON`. -/
def conditionTokens : List Conjunct → List Token
  | [] => []
  | [k] => k.tokens
  | k :: ks => k.tokens ++ .symbol .and :: conditionTokens ks

/-- What is compared, as it is written. -/
def Operand.text (style : Style) : Operand → Text
  | column qualifier name => style.column qualifier name
  | literal v => style.dialect.literal v

/-- A token as it is written. -/
def Token.text (style : Style) : Token → Text
  | symbol s => s.text
  | operand o => o.text style
  | given terms => enclosedText (style.text terms)
  | other t => style.text [t]

theorem Symbol.text_of_ofText? {t : Text} {s : Symbol} (h : Symbol.ofText? t = some s) :
    s.text = t := by
  rw [ofText?] at h
  have hbeq := List.find?_some h
  exact beq_iff_eq.1 hbeq

theorem Term.text_tokens (t : Term) : t.tokens.flatMap (Token.text style) = style.text [t] := by
  cases t with
  | raw t =>
    rw [tokens, Style.text_raw]
    split
    · rename_i s hs
      rw [← Symbol.text_of_ofText? hs]
      rfl
    · simp [Token.text, Style.text, partsAll, parts, Part.render]
  | equals qualifier column value =>
    rw [text_equals]
    simp [tokens, Token.text, Operand.text, Symbol.text_equal]
  | column | output | param | select =>
    simp [tokens, Token.text, Operand.text, Style.text, partsAll, parts, Part.render]

theorem Conjunct.text_tokens (k : Conjunct) :
    k.tokens.flatMap (Token.text style) = style.conjunctText k := by
  obtain ⟨ts, enclosed⟩ := k
  cases enclosed with
  | true => exact List.append_nil _
  | false =>
    show (ts.flatMap Term.tokens).flatMap (Token.text style) = style.text ts
    induction ts with
    | nil => rfl
    | cons t ts ih =>
      rw [List.flatMap_cons, List.flatMap_append, Term.text_tokens, ih]
      exact Style.text_append.symm

theorem conditionTokens_cons {k l : Conjunct} {ks : List Conjunct} :
    conditionTokens (k :: l :: ks) = k.tokens ++ .symbol .and :: conditionTokens (l :: ks) :=
  rfl

/-- The tokens are what is written. -/
theorem text_conditionTokens (ks : List Conjunct) :
    (conditionTokens ks).flatMap (Token.text style) = style.conditionText ks := by
  induction ks with
  | nil => rfl
  | cons k ks ih =>
    cases ks with
    | nil => rw [conditionTokens, Conjunct.text_tokens, Style.conditionText_singleton]
    | cons l ks =>
      rw [conditionTokens_cons, List.flatMap_append, List.flatMap_cons, Conjunct.text_tokens, ih,
        Style.conditionText_cons]
      rfl

theorem conditionTokens_append {ks ls : List Conjunct} (hks : ks ≠ []) (hls : ls ≠ []) :
    conditionTokens (ks ++ ls) = conditionTokens ks ++ .symbol .and :: conditionTokens ls := by
  induction ks with
  | nil => exact absurd rfl hks
  | cons k ks ih =>
    cases ks with
    | nil =>
      obtain ⟨l, ls, rfl⟩ := List.exists_cons_of_ne_nil hls
      exact conditionTokens_cons
    | cons k' ks =>
      have htail := ih (List.cons_ne_nil _ _)
      rw [List.cons_append] at htail
      rw [List.cons_append, List.cons_append, conditionTokens_cons, htail, conditionTokens_cons,
        List.append_assoc, List.cons_append]

/-! ## Formulas -/

/-- A condition. -/
inductive Formula
  | equal (left right : Operand)
  | unequal (left right : Operand)
  | given (terms : List Term)
  | and (f g : Formula)
  | or (f g : Formula)

/-- How much a sequence of tokens may hold without parentheses around it. -/
inductive Rank
  /-- One comparison or condition. -/
  | unit
  /-- Units with `AND` between them. -/
  | conjunction
  /-- Conjunctions with `OR` between them. -/
  | disjunction

/-- The tokens are read as the formula. -/
inductive Reads : Rank → List Token → Formula → Prop
  | equal (l r : Operand) :
    Reads .unit [.operand l, .symbol .equal, .operand r] (.equal l r)
  | unequal (l r : Operand) :
    Reads .unit [.operand l, .symbol .unequal, .operand r] (.unequal l r)
  | given (terms : List Term) : Reads .unit [.given terms] (.given terms)
  | group {ts : List Token} {f : Formula} (h : Reads .disjunction ts f) :
    Reads .unit (.symbol .opening :: (ts ++ [.symbol .closing])) f
  | ofUnit {ts : List Token} {f : Formula} (h : Reads .unit ts f) : Reads .conjunction ts f
  | and {ts us : List Token} {f g : Formula} (hf : Reads .conjunction ts f)
    (hg : Reads .unit us g) : Reads .conjunction (ts ++ .symbol .and :: us) (.and f g)
  | ofConjunction {ts : List Token} {f : Formula} (h : Reads .conjunction ts f) :
    Reads .disjunction ts f
  | or {ts us : List Token} {f g : Formula} (hf : Reads .disjunction ts f)
    (hg : Reads .conjunction us g) : Reads .disjunction (ts ++ .symbol .or :: us) (.or f g)

/-- What has been read since the last parenthesis that is still open: the conjunctions before the
last `OR`, and the units after it. -/
structure Frame where
  before : Option Formula := none
  units : Option Formula := none

namespace Frame

/-- One more unit. -/
def add (fr : Frame) (f : Formula) : Frame :=
  { fr with units := some (fr.units.elim f fun g => .and g f) }

/-- All that has been read. -/
def whole (fr : Frame) : Option Formula :=
  fr.units.map fun f => fr.before.elim f fun g => .or g f

end Frame

/-- Reads tokens from left to right; a frame is put aside at an opening parenthesis. -/
def readFrom : Frame → List Frame → List Token → Option Formula
  | fr, aside, .operand l :: .symbol .equal :: .operand r :: ts =>
    readFrom (fr.add (.equal l r)) aside ts
  | fr, aside, .operand l :: .symbol .unequal :: .operand r :: ts =>
    readFrom (fr.add (.unequal l r)) aside ts
  | fr, aside, .given terms :: ts => readFrom (fr.add (.given terms)) aside ts
  | fr, aside, .symbol .opening :: ts => readFrom {} (fr :: aside) ts
  | fr, outer :: aside, .symbol .closing :: ts =>
    fr.whole.bind fun f => readFrom (outer.add f) aside ts
  | fr, aside, .symbol .and :: ts => readFrom fr aside ts
  | fr, aside, .symbol .or :: ts => readFrom { before := fr.whole } aside ts
  | fr, [], [] => fr.whole
  | _, _, _ => none

/-- Reading tokens leads to their formula, whatever has been read before and comes after. -/
def Rank.Leads : Rank → List Token → Formula → Prop
  | unit, ts, f => ∀ fr aside rest, readFrom fr aside (ts ++ rest) = readFrom (fr.add f) aside rest
  | conjunction, ts, f => ∀ before aside rest,
    readFrom { before := before } aside (ts ++ rest) =
      readFrom { before := before, units := some f } aside rest
  | disjunction, ts, f => ∃ fr : Frame, fr.whole = some f ∧
    ∀ aside rest, readFrom {} aside (ts ++ rest) = readFrom fr aside rest

theorem Reads.leads {rank : Rank} {ts : List Token} {f : Formula} (h : Reads rank ts f) :
    rank.Leads ts f := by
  induction h with
  | equal l r => exact fun fr aside rest => by simp [readFrom]
  | unequal l r => exact fun fr aside rest => by simp [readFrom]
  | given terms => exact fun fr aside rest => by simp [readFrom]
  | group _ ih =>
    obtain ⟨fr', hwhole, hfr⟩ := ih
    intro fr aside rest
    rw [List.cons_append, List.append_assoc, readFrom, hfr, List.singleton_append, readFrom,
      hwhole]
    rfl
  | ofUnit _ ih => exact fun before aside rest => ih _ _ _
  | and _ _ ihf ihg =>
    intro before aside rest
    rw [List.append_assoc, ihf, List.cons_append, readFrom, ihg]
    rfl
  | ofConjunction _ ih => exact ⟨_, rfl, ih none⟩
  | @or ts us f g _ _ ihf ihg =>
    obtain ⟨fr, hwhole, hfr⟩ := ihf
    refine ⟨{ before := some f, units := some g }, rfl, fun aside rest => ?_⟩
    rw [List.append_assoc, hfr, List.cons_append, readFrom, hwhole, ihg]

/-- A sequence of tokens is read as one formula at most. -/
theorem Reads.unique {ts : List Token} {f g : Formula} (hf : Reads .disjunction ts f)
    (hg : Reads .disjunction ts g) : f = g := by
  have hread {f : Formula} (h : Reads .disjunction ts f) : readFrom {} [] ts = some f := by
    obtain ⟨fr, hwhole, hfr⟩ := h.leads
    rw [← List.append_nil ts, hfr, readFrom, hwhole]
  exact Option.some_inj.1 ((hread hf).symm.trans (hread hg))

/-! ## Meaning -/

/-- Rows under the names of tables, the values of literals, and which conditions of the query
hold. -/
structure Valuation (α : Type) where
  row : String → String → α
  literal : Value → α
  given : List Term → Prop

/-- The value of what is compared. -/
def Operand.value (i : Valuation α) : Operand → α
  | column qualifier name => i.row qualifier name
  | literal v => i.literal v

/-- The formula is true. -/
def Formula.Holds (i : Valuation α) : Formula → Prop
  | equal l r => l.value i = r.value i
  | unequal l r => l.value i ≠ r.value i
  | given terms => i.given terms
  | and f g => f.Holds i ∧ g.Holds i
  | or f g => f.Holds i ∨ g.Holds i

/-- A conjunction after a conjunction, regrouped from left to right. -/
theorem Reads.conj {ts us : List Token} {f g : Formula} (hf : Reads .conjunction ts f)
    (hg : Reads .conjunction us g) : ∃ e, Reads .conjunction (ts ++ .symbol .and :: us) e ∧
      ∀ {α : Type} (i : Valuation α), e.Holds i ↔ f.Holds i ∧ g.Holds i := by
  generalize hrank : Rank.conjunction = rank at hg
  induction hg with
  | ofUnit hg => exact ⟨_, .and hf hg, fun i => Iff.rfl⟩
  | and _ hu ih =>
    obtain ⟨e, he, hiff⟩ := ih rfl
    refine ⟨_, by simpa using Reads.and he hu, fun i => ?_⟩
    simp only [Formula.Holds, hiff, and_assoc]
  | equal | unequal | given | group | ofConjunction | or => cases hrank

/-! ## Conditions -/

/-- The condition, if there is one, is read as a conjunction. -/
def Legible (ks : List Conjunct) : Prop :=
  ks ≠ [] → ∃ f, Reads .conjunction (conditionTokens ks) f

/-- The condition, if there is one, is read as a formula that is true. -/
def Holds (i : Valuation α) (ks : List Conjunct) : Prop :=
  ks ≠ [] → ∃ f, Reads .disjunction (conditionTokens ks) f ∧ f.Holds i

variable {i : Valuation α} {ks ls : List Conjunct} {f : Formula}

theorem holds_nil : Holds i [] := fun h => absurd rfl h

theorem legible_nil : Legible [] := fun h => absurd rfl h

/-- A condition holds when the formula that it is read as does. -/
theorem holds_iff (hks : ks ≠ []) (h : Reads .disjunction (conditionTokens ks) f) :
    Holds i ks ↔ f.Holds i :=
  ⟨fun hk => by obtain ⟨g, hg, hi⟩ := hk hks; exact h.unique hg ▸ hi, fun hi _ => ⟨f, h, hi⟩⟩

theorem Legible.existsUnique (h : Legible ks) (hks : ks ≠ []) :
    ∃! f, Reads .disjunction (conditionTokens ks) f := by
  obtain ⟨f, hf⟩ := h hks
  exact ⟨f, .ofConjunction hf, fun g hg => hg.unique (.ofConjunction hf)⟩

theorem Legible.append (hks : Legible ks) (hls : Legible ls) : Legible (ks ++ ls) := by
  rcases eq_or_ne ks [] with rfl | hk
  · exact hls
  rcases eq_or_ne ls [] with rfl | hl
  · rwa [List.append_nil]
  obtain ⟨f, hf⟩ := hks hk
  obtain ⟨g, hg⟩ := hls hl
  obtain ⟨e, he, -⟩ := hf.conj hg
  exact fun _ => ⟨e, conditionTokens_append hk hl ▸ he⟩

/-- Conditions one after the other hold when each of them does. -/
theorem holds_append (hks : Legible ks) (hls : Legible ls) :
    Holds i (ks ++ ls) ↔ Holds i ks ∧ Holds i ls := by
  rcases eq_or_ne ks [] with rfl | hk
  · exact (and_iff_right holds_nil).symm
  rcases eq_or_ne ls [] with rfl | hl
  · rw [List.append_nil]
    exact (and_iff_left holds_nil).symm
  obtain ⟨f, hf⟩ := hks hk
  obtain ⟨g, hg⟩ := hls hl
  obtain ⟨e, he, hiff⟩ := hf.conj hg
  rw [← conditionTokens_append hk hl] at he
  rw [holds_iff hk (.ofConjunction hf), holds_iff hl (.ofConjunction hg),
    holds_iff (List.append_ne_nil_of_left_ne_nil hk _) (.ofConjunction he)]
  exact hiff i

/-- A conjunct alone. -/
theorem legible_singleton {k : Conjunct} (h : Reads .conjunction k.tokens f) : Legible [k] :=
  fun _ => ⟨f, h⟩

theorem holds_singleton {k : Conjunct} (h : Reads .conjunction k.tokens f) :
    Holds i [k] ↔ f.Holds i :=
  holds_iff (List.cons_ne_nil _ _) (.ofConjunction h)

/-- A condition of the query can always be read. -/
theorem legible_enclosed (ts : List Term) : Legible [⟨ts, true⟩] :=
  legible_singleton (.ofUnit (.given ts))

end Sql
end ObjectQuery
