import ObjectQuery.Proofs.Compiler.Placeholders
import ObjectQuery.Proofs.Resolve.Frames
import ObjectQuery.Proofs.Text.Lexemes

/-! # The pieces of an expression keep its text

The text of an expression that is resolved is cut into stretches, each of which became one piece
(`Stretches`): a stretch is copied, or a placeholder, a word or the text of a subquery stands in it.
Texts that follow one another are merged (`Piece.StandsFor`), and nothing else happens to the text:
with the stretches for the pieces it is the text that was resolved.

* `resolveFragments_stretches`: the stretches of fragments;
* `Stretches.formed`: what stretches there are;
* `Stretches.holdsLiteral`: literals are copied as a whole, or belong to subqueries;
* `resolveExpr_keeps_text`: expressions. -/

namespace ObjectQuery

open Resolve

variable {env : Surroundings} {s : Scanner} {subquery : ResolveSubquery} {clause : Clause}
  {bare : BareWords} {join : Option JoinScope} {param levels pos : Nat} {b b' : Bindings}
  {fs : List Fragment} {ps : List Piece} {t w : Text} {called : Bool} {p : Piece} {m : Mark}
  {st : LiteralState} {opens : List Nat}

/-- A stretch of the text of an expression, and the piece that it became. -/
structure Stretch where
  source : Text
  piece : Piece

namespace Stretch

/-- The text that stretches make up. -/
def text (ss : List Stretch) : Text := ss.flatMap (·.source)

/-- The stretch is copied. -/
def Kept (x : Stretch) : Prop := x.piece = .text x.source

end Stretch

open Stretch

variable {x : Stretch} {ss : List Stretch}

/-- The piece became of the stretches: of one alone, or of several that are copied. -/
def Piece.StandsFor (p : Piece) (ss : List Stretch) : Prop :=
  (∃ x, ss = [x] ∧ x.piece = p) ∨ p = .text (Stretch.text ss) ∧ ∀ x ∈ ss, x.Kept

/-- What becomes of a word, depending on whether a parenthesis follows. A word with a point is the
column of an alias; a word without points is kept when it is called, reserved or without meaning. -/
inductive WordBecomes (bare : BareWords) (b : Bindings) (w : Text) : Bool → Piece → Prop
  | reference {called : Bool} {userAlias field : String} {id : AliasId} {c : Component}
    {column : Column} (hw : w.path? = some [userAlias, field])
    (hl : b.resolver.lookup? userAlias = some id) (hc : b.component? id = some c)
    (hcol : c.column? field = some column) : WordBecomes bare b w called (.column id column.name)
  | call (hw : w.isIdentifier = true) : WordBecomes bare b w true (.text w)
  | reserved (hw : w.isIdentifier = true) (hr : w.isReserved = true) :
    WordBecomes bare b w false (.text w)
  | means {p : Piece} (hw : w.isIdentifier = true) (hr : w.isReserved = false)
    (hp : bare.Means b w p) : WordBecomes bare b w false p
  | unknown (hw : w.isIdentifier = true) (hr : w.isReserved = false)
    (hno : ∀ p, ¬ bare.Means b w p) : WordBecomes bare b w false (.text w)

/-- The stretches of a text and what became of them, one after the other: `param` is the ordinal of
the first placeholder, and only subqueries change the bindings. -/
inductive Stretches (s : Scanner) (subquery : ResolveSubquery) (clause : Clause) (bare : BareWords) :
    Nat → Bindings → List Stretch → Bindings → Prop
  | nil {param : Nat} {b : Bindings} : Stretches s subquery clause bare param b [] b
  | kept {param : Nat} {b b' : Bindings} {u : Text} {ss : List Stretch}
    (hu : Fragment.Lexes s (text ss) (.verbatim u))
    (h : Stretches s subquery clause bare param b ss b') :
    Stretches s subquery clause bare param b (⟨u, .text u⟩ :: ss) b'
  | placeholder {param : Nat} {b b' : Bindings} {ss : List Stretch}
    (h : Stretches s subquery clause bare (param + 1) b ss b') :
    Stretches s subquery clause bare param b (⟨['?'], .placeholder param⟩ :: ss) b'
  | word {param : Nat} {b b' : Bindings} {w : Text} {called : Bool} {p : Piece} {ss : List Stretch}
    (hw : Fragment.Lexes s (text ss) (.word w called)) (hp : WordBecomes bare b w called p)
    (h : Stretches s subquery clause bare param b ss b') :
    Stretches s subquery clause bare param b (⟨w, p⟩ :: ss) b'
  | subquery {param : Nat} {b b₁ b' : Bindings} {inner : Text} {q : Subquery} {ss : List Stretch}
    (hinner : Fragment.Lexes s (text ss) (.subquery inner))
    (hq : (subquery inner param clause).Runs b q b₁)
    (h : Stretches s subquery clause bare (param + s.count inner) b₁ ss b') :
    Stretches s subquery clause bare param b
      (⟨['('], .text ['(']⟩ :: ⟨inner, .subquery q⟩ :: ⟨[')'], .text [')']⟩ :: ss) b'

/-! ## Resolving fragments -/

theorem takeWhile_append_dot (h : '.' ∈ w) :
    w.takeWhile (· != '.') ++ '.' :: (w.dropWhile (· != '.')).drop 1 = w := by
  cases hd : w.dropWhile (· != '.') with
  | nil => exact absurd (List.dropWhile_eq_nil_iff.1 hd '.' h) (by decide)
  | cons d r =>
    have hdot := List.head?_dropWhile_not (· != '.') w
    rw [hd] at hdot
    obtain rfl : d = '.' := by simpa using hdot
    rw [List.drop_succ_cons, List.drop_zero, ← hd, List.takeWhile_append_dropWhile]

theorem runs_word {after : Text} (hw : Fragment.Lexes s after (.word w called))
    (h : (Fragment.resolve subquery clause bare join param (.word w called)).Runs b ps b') :
    b' = b ∧ ∃ p, ps = [p] ∧ WordBecomes bare b w called p := by
  cases hw with
  | @word c w hc hw =>
    simp only [Fragment.resolve] at h
    split at h
    · rename_i hdot
      obtain ⟨p, _, h1, h2⟩ := runs_bind.1 h
      obtain ⟨rfl, rfl⟩ := runs_pure.1 h2
      obtain ⟨rfl, hfield, id, component, column, hl, hcomp, hcol, rfl⟩ :=
        exists_of_resolveReference h1
      refine ⟨rfl, _, rfl, ?_⟩
      have hne : (c != '.') = true := by
        rw [bne_iff_ne]
        rintro rfl
        cases hc
      simp only [List.takeWhile_cons, List.dropWhile_cons, hne, if_true] at hl hcol hfield
      have ha : '.' ∉ c :: w.takeWhile (· != '.') := fun h => by
        rcases List.mem_cons.1 h with rfl | h
        · cases hne
        · exact absurd (List.mem_takeWhile_imp h) (by decide)
      have hdot : '.' ∈ w := by
        simpa [Ne.symm (bne_iff_ne.1 hne)] using hdot
      have he : c :: w = (c :: w.takeWhile (· != '.')) ++ '.' :: (w.dropWhile (· != '.')).drop 1 :=
        congrArg (c :: ·) (takeWhile_append_dot hdot).symm
      exact .reference (Text.path?_of_reference hc hw ha hfield he) hl hcomp hcol
    · rename_i hdot
      have hid := Text.isIdentifier_of_reference hc hw (List.Subset.refl _)
        fun h => hdot (by simp [h])
      split at h
      · rename_i hcalled
        obtain ⟨rfl, rfl⟩ := runs_pure.1 h
        exact ⟨rfl, _, rfl, hcalled ▸ .call hid⟩
      · rename_i hcalled
        obtain ⟨p, _, h1, h2⟩ := runs_bind.1 h
        obtain ⟨rfl, rfl⟩ := runs_pure.1 h2
        rw [Bool.eq_false_of_not_eq_true hcalled]
        obtain ⟨rfl, ⟨hr, rfl⟩ | ⟨hr, hp | ⟨hno, rfl⟩⟩⟩ := resolveBare_cases h1
        · exact ⟨rfl, _, rfl, .reserved hid hr⟩
        · exact ⟨rfl, _, rfl, .means hid hr hp⟩
        · exact ⟨rfl, _, rfl, .unknown hid hr hno⟩

theorem resolveFragments_stretches (hfs : Fragment.AllLex s fs)
    (h : (resolveFragments s subquery clause bare join param fs).Runs b ps b') :
    ∃ ss, ss.map (·.piece) = ps ∧ text ss = fs.flatMap Fragment.source ∧
      Stretches s subquery clause bare param b ss b' := by
  induction fs generalizing param b ps with
  | nil =>
    obtain ⟨rfl, rfl⟩ := runs_pure.1 h
    exact ⟨[], rfl, rfl, .nil⟩
  | cons f fs ih =>
    obtain ⟨hf, hfs⟩ := hfs
    obtain ⟨ps₁, b₁, ps₂, h1, h2, rfl⟩ := runs_resolveFragments_cons h
    obtain ⟨ss, rfl, htext, hss⟩ := ih hfs h2
    rw [← htext] at hf
    rw [List.flatMap_cons, ← htext]
    cases f with
    | verbatim u =>
      obtain ⟨rfl, rfl⟩ := runs_pure.1 h1
      exact ⟨_, rfl, rfl, .kept hf hss⟩
    | placeholder =>
      obtain ⟨rfl, rfl⟩ := runs_pure.1 h1
      exact ⟨_, rfl, rfl, .placeholder hss⟩
    | named u => exact absurd h1 not_runs_malformed
    | word w called =>
      obtain ⟨rfl, p, rfl, hp⟩ := runs_word hf h1
      exact ⟨_, rfl, rfl, .word hf hp hss⟩
    | subquery inner =>
      obtain ⟨q, _, hq, h1⟩ := runs_bind.1 h1
      obtain ⟨rfl, rfl⟩ := runs_pure.1 h1
      have hcount : Fragment.placeholders s (.subquery inner) = s.count inner := by
        cases hf with
        | subquery hi => exact hi.countP_marks
      rw [hcount] at hss
      refine ⟨_, rfl, ?_, .subquery hf hq hss⟩
      simp [text, Fragment.source]

/-! ## Stretches one by one -/

/-- What stretches there are. -/
inductive Stretch.Formed (s : Scanner) (bare : BareWords) : Stretch → Prop
  | kept {after u : Text} (hu : Fragment.Lexes s after (.verbatim u)) : Formed s bare ⟨u, .text u⟩
  | placeholder {ordinal : Nat} : Formed s bare ⟨['?'], .placeholder ordinal⟩
  | word {after w : Text} {called : Bool} {b : Bindings} {p : Piece}
    (hw : Fragment.Lexes s after (.word w called)) (hp : WordBecomes bare b w called p) :
    Formed s bare ⟨w, p⟩
  | opening : Formed s bare ⟨['('], .text ['(']⟩
  | closing : Formed s bare ⟨[')'], .text [')']⟩
  | subquery {inner : Text} {q : Subquery} (hi : s.Balanced inner) : Formed s bare ⟨inner, .subquery q⟩

theorem Stretches.formed (h : Stretches s subquery clause bare param b ss b') :
    ∀ x ∈ ss, x.Formed s bare := by
  induction h with
  | nil => exact nofun
  | kept hu _ ih => exact List.forall_mem_cons.2 ⟨.kept hu, ih⟩
  | placeholder _ ih => exact List.forall_mem_cons.2 ⟨.placeholder, ih⟩
  | word hw hp _ ih => exact List.forall_mem_cons.2 ⟨.word hw hp, ih⟩
  | subquery hinner _ _ ih =>
    cases hinner with
    | subquery hi =>
      exact List.forall_mem_cons.2 ⟨.opening, List.forall_mem_cons.2 ⟨.subquery hi,
        List.forall_mem_cons.2 ⟨.closing, ih⟩⟩⟩

theorem Stretch.Formed.kept_of_text {u : Text} (h : x.Formed s bare) (hx : x.piece = .text u) :
    u = x.source ∧ u ≠ [] := by
  cases h with
  | placeholder | subquery => cases hx
  | opening | closing =>
    cases hx
    exact ⟨rfl, List.cons_ne_nil _ _⟩
  | kept hu =>
    cases hx
    exact ⟨rfl, hu.source_ne_nil⟩
  | word hw hp =>
    cases hp with
    | reference => cases hx
    | means _ _ hp => cases hp <;> cases hx
    | call | reserved | unknown =>
      cases hx
      exact ⟨rfl, hw.source_ne_nil⟩

/-- No stretch begins or ends inside a literal. -/
theorem Stretch.Formed.run_source (h : x.Formed s bare) :
    Quoting.run s .outside x.source = .outside := by
  cases h with
  | placeholder | opening | closing => rfl
  | kept hu => exact hu.run_source
  | word hw => exact hw.run_source
  | subquery hi => exact hi.run

/-! ## Texts that are merged -/

/-- The pieces in canonical form became of stretches that follow one another. -/
theorem exists_groups (ss : List Stretch)
    (hss : ∀ x ∈ ss, ∀ u, x.piece = .text u → u = x.source ∧ u ≠ []) :
    ∃ groups, groups.flatten = ss ∧
      List.Forall₂ Piece.StandsFor (canonicalPieces (ss.map (·.piece))) groups := by
  refine canonicalPieces_induction (R := fun ps qs => ∀ ss : List Stretch, ss.map (·.piece) = ps →
    (∀ x ∈ ss, ∀ u, x.piece = .text u → u = x.source ∧ u ≠ []) →
    ∃ groups, groups.flatten = ss ∧ List.Forall₂ Piece.StandsFor qs groups)
    ?_ ?_ ?_ ?_ _ ss rfl hss
  · rintro ss hps -
    obtain rfl := List.map_eq_nil_iff.1 hps
    exact ⟨[], rfl, .nil⟩
  · intro p ps qs ih ss hps hss
    obtain ⟨x, ss, rfl, rfl, rfl⟩ := List.map_eq_cons_iff.1 hps
    obtain ⟨groups, rfl, hgroups⟩ := ih ss rfl fun y hy => hss y (List.mem_cons_of_mem _ hy)
    exact ⟨[x] :: groups, rfl, .cons (.inl ⟨x, rfl, rfl⟩) hgroups⟩
  · intro ps qs ih ss hps hss
    obtain ⟨x, ss, rfl, hx, rfl⟩ := List.map_eq_cons_iff.1 hps
    exact absurd rfl (hss x List.mem_cons_self [] hx).2
  · intro t u ps qs ih ss hps hss
    obtain ⟨x, ss, rfl, hx, rfl⟩ := List.map_eq_cons_iff.1 hps
    obtain ⟨groups, rfl, hgroups⟩ := ih ss rfl fun y hy => hss y (List.mem_cons_of_mem _ hy)
    obtain rfl := (hss x List.mem_cons_self t hx).1
    have hkept : x.Kept := hx
    cases hgroups with
    | @cons _ g _ groups hg hgroups =>
      refine ⟨(x :: g) :: groups, rfl, .cons (.inr ?_) hgroups⟩
      rcases hg with ⟨y, rfl, hy⟩ | ⟨hg, hkepts⟩
      · have hmem : y ∈ x :: ([y] :: groups).flatten := by simp
        obtain rfl := (hss y hmem u hy).1
        exact ⟨by simp [Stretch.text], by simpa [hkept] using show y.Kept from hy⟩
      · rw [Piece.text.injEq] at hg
        exact ⟨by rw [hg]; rfl, List.forall_mem_cons.2 ⟨hkept, hkepts⟩⟩

/-! ## Literals -/

/-- The literal that opens at a mark is a stretch that is copied, or it belongs to a subquery. The
stretches start at position `pos`. -/
def Stretch.HoldsLiteral (s : Scanner) (ss : List Stretch) (pos : Nat) (m : Mark) : Prop :=
  ∃ a rest, Stretch.text ss = a ++ m.char :: rest ∧ m.pos = pos + a.length ∧
    let n := s.literalLength (.inside m.char 0) rest
    ((∃ before after, ss = before ++ ⟨m.char :: rest.take n, .text (m.char :: rest.take n)⟩ :: after ∧
      Stretch.text before = a) ∨
    ∃ before inner q after, ss = before ++ ⟨inner, .subquery q⟩ :: after ∧
      (Stretch.text before).length ≤ a.length ∧
      a.length + 1 + n ≤ (Stretch.text before).length + inner.length)

theorem Stretch.HoldsLiteral.cons (h : HoldsLiteral s ss (pos + x.source.length) m) :
    HoldsLiteral s (x :: ss) pos m := by
  obtain ⟨a, rest, htext, hpos, h⟩ := h
  refine ⟨x.source ++ a, rest, ?_, by rw [hpos, List.length_append, Nat.add_assoc], ?_⟩
  · rw [List.append_assoc, ← htext]
    rfl
  · rcases h with ⟨before, after, rfl, rfl⟩ | ⟨before, inner, q, after, rfl, hle, hlen⟩
    · exact .inl ⟨x :: before, after, rfl, rfl⟩
    · refine .inr ⟨x :: before, inner, q, after, rfl, ?_, ?_⟩
      all_goals simp only [Stretch.text, List.flatMap_cons, List.length_append] at hle hlen ⊢; omega

/-- A text that holds no quotes holds no literal. -/
theorem Stretch.HoldsLiteral.cons_of_unquoted (hx : ∀ c ∈ x.source, isQuote c = false)
    (hne : x.source ≠ []) (hfree : st.Free s (Stretch.text (x :: ss)))
    (hm : m ∈ (s.scanFrom st opens pos (Stretch.text (x :: ss))).marks) (hq : isQuote m.char = true)
    (ih : ∀ opens, m ∈ (s.scanFrom .outside opens (pos + x.source.length) (Stretch.text ss)).marks →
      HoldsLiteral s ss (pos + x.source.length) m) : HoldsLiteral s (x :: ss) pos m := by
  obtain ⟨opens', hm⟩ := Scanner.quote_mem_append hx hne hfree hm hq
  exact (ih opens' hm).cons

/-- Every literal is copied as a whole, or belongs to a subquery. -/
theorem Stretches.holdsLiteral (h : Stretches s subquery clause bare param b ss b')
    (hfree : st.Free s (Stretch.text ss))
    (hm : m ∈ (s.scanFrom st opens pos (Stretch.text ss)).marks) (hq : isQuote m.char = true) :
    HoldsLiteral s ss pos m := by
  induction h generalizing st opens pos with
  | nil =>
    have hnone : (s.scanFrom st opens pos []).marks = [] := by
      cases st <;> cases opens <;> rfl
    rw [show Stretch.text [] = [] from rfl, hnone] at hm
    cases hm
  | @kept param b b' u ss hu _ ih =>
    rcases hu.verbatim_cases with ⟨c, body, rfl, hc, -, hbody⟩ | hquotes
    · rw [show Stretch.text (⟨c :: body, .text (c :: body)⟩ :: ss) =
        c :: (body ++ Stretch.text ss) from rfl, Scanner.scanFrom_quote (hfree c rfl) hc] at hm
      rcases List.mem_cons.1 hm with rfl | hm
      · refine ⟨[], body ++ Stretch.text ss, rfl, rfl, .inl ⟨[], ss, ?_, rfl⟩⟩
        simp [hbody]
      · -- the rest of the literal is not marked
        obtain ⟨st', hfree', hscan⟩ := Scanner.scanFrom_literalLength (s := s) (pos + 1)
          (.inside c pos) (body ++ Stretch.text ss)
        have hlen : s.literalLength (.inside c pos) (body ++ Stretch.text ss) = body.length :=
          (Scanner.literalLength_relabel pos (.inside c 0) _).trans hbody
        rw [hlen, List.drop_left] at hfree'
        rw [hscan, hlen, List.drop_left, Nat.add_assoc, Nat.add_comm 1] at hm
        exact (ih hfree' hm).cons
    · exact .cons_of_unquoted hquotes hu.source_ne_nil hfree hm hq fun _ => ih (.outside _)
  | placeholder _ ih =>
    refine .cons_of_unquoted (fun c hc => ?_) (List.cons_ne_nil _ _) hfree hm hq
      fun _ => ih (.outside _)
    rw [List.mem_singleton.1 hc]
    rfl
  | word hw _ _ ih =>
    exact .cons_of_unquoted (fun c hc => (hw.word_tame c hc).1.1) hw.source_ne_nil hfree hm hq
      fun _ => ih (.outside _)
  | @subquery param b b₁ b' inner q ss hinner _ _ ih =>
    have hi : Quoting.run s .outside inner = .outside := by
      cases hinner with
      | subquery hi => exact hi.run
    have htext : Stretch.text (⟨['('], .text ['(']⟩ :: ⟨inner, .subquery q⟩ ::
        ⟨[')'], .text [')']⟩ :: ss) = '(' :: (inner ++ ')' :: Stretch.text ss) := rfl
    rw [htext] at hfree hm
    obtain ⟨opens', hm⟩ := Scanner.quote_mem_cons rfl (hfree _ rfl) hm hq
    rcases Scanner.quote_mem_scanFrom .outside hi rfl hm hq with
      ⟨a₁, a₂, rfl, hpos, hlen⟩ | ⟨st', opens'', hn, hm⟩
    · refine ⟨'(' :: a₁, a₂ ++ ')' :: Stretch.text ss, ?_, ?_, .inr ⟨[⟨['('], .text ['(']⟩], _, q, _,
        rfl, ?_, ?_⟩⟩
      · rw [htext]
        simp
      · rw [hpos, List.length_cons]
        omega
      · exact Nat.le_add_left 1 _
      · show a₁.length + 1 + 1 + _ ≤ 1 + _
        rw [List.length_append, List.length_cons]
        omega
    · obtain ⟨opens₃, hm⟩ := Scanner.quote_mem_cons rfl hn hm hq
      exact HoldsLiteral.cons (.cons (.cons (ih (.outside _) hm)))

/-! ## Cuts -/

theorem Stretch.run_text (h : ∀ x ∈ ss, Quoting.run s .outside x.source = .outside) :
    Quoting.run s .outside (Stretch.text ss) = .outside := by
  induction ss with
  | nil => rfl
  | cons x ss ih =>
    rw [Stretch.text, List.flatMap_cons, Quoting.run_append, h x List.mem_cons_self]
    exact ih fun y hy => h y (List.mem_cons_of_mem _ hy)

/-! ## Expressions -/

/-- The literal that opens at a position. -/
def Scanner.literalAt (s : Scanner) (t : Text) (pos : Nat) : Text :=
  (Span.mk pos (s.literalEnd t pos)).slice t

/-- The expression `e` keeps the text `t` that it became of: the text is cut into groups of stretches,
one for each piece. -/
structure Expr.KeepsText (s : Scanner) (subquery : ResolveSubquery) (clause : Clause)
    (bare : BareWords) (param : Nat) (b b' : Bindings) (t : Text) (e : Expr)
    (groups : List (List Stretch)) : Prop where
  /-- With the stretches for the pieces, the pieces are the text. -/
  text : Stretch.text groups.flatten = t
  /-- What becomes of each stretch. -/
  stretches : Stretches s subquery clause bare param b groups.flatten b'
  pieces : List.Forall₂ Piece.StandsFor e.pieces groups
  /-- A literal is a stretch that is copied, or it belongs to a subquery. -/
  literals : ∀ m ∈ (s.scan t).marks, isQuote m.char = true →
    (∃ before after, groups.flatten =
        before ++ ⟨s.literalAt t m.pos, .text (s.literalAt t m.pos)⟩ :: after ∧
      (Stretch.text before).length = m.pos) ∨
    ∃ before inner q after, groups.flatten = before ++ ⟨inner, .subquery q⟩ :: after ∧
      (Stretch.text before).length ≤ m.pos ∧
      s.literalEnd t m.pos ≤ (Stretch.text before).length + inner.length
  /-- A cut is outside literals, and between the bytes of two characters. -/
  cuts : ∀ before after, groups.flatten = before ++ after →
    Quoting.run s .outside (Stretch.text before) = .outside ∧
    String.Pos.Raw.IsValid (String.ofList t) ⟨Text.byteOffset t (Stretch.text before).length⟩

theorem Stretch.HoldsLiteral.literals (h : HoldsLiteral s ss 0 m) :
    (∃ before after, ss = before ++ ⟨s.literalAt (Stretch.text ss) m.pos,
        .text (s.literalAt (Stretch.text ss) m.pos)⟩ :: after ∧
      (Stretch.text before).length = m.pos) ∨
    ∃ before inner q after, ss = before ++ ⟨inner, .subquery q⟩ :: after ∧
      (Stretch.text before).length ≤ m.pos ∧
      s.literalEnd (Stretch.text ss) m.pos ≤ (Stretch.text before).length + inner.length := by
  obtain ⟨a, rest, htext, hpos, h⟩ := h
  rw [Nat.zero_add] at hpos
  have hend : s.literalEnd (Stretch.text ss) m.pos =
      a.length + 1 + s.literalLength (.inside m.char 0) rest := by
    rw [htext, hpos, Scanner.literalEnd_append]
  have hliteral : s.literalAt (Stretch.text ss) m.pos =
      m.char :: rest.take (s.literalLength (.inside m.char 0) rest) := by
    rw [Scanner.literalAt, hend, htext, hpos, Span.slice, Nat.add_assoc, List.take_length_add_append,
      List.drop_left, Nat.add_comm 1, List.take_succ_cons]
  rw [hliteral, hend, hpos]
  rcases h with ⟨before, after, he, rfl⟩ | h
  · exact .inl ⟨before, after, he, rfl⟩
  · exact .inr h

/-- Resolving an expression keeps its text, in any state and under any policy for bare words. -/
theorem resolveExpr_keeps_text {e : Expr}
    (h : (resolveExpr env.config.scanner (resolveSubquery env levels) clause bare join param t).Runs
      b e b') :
    ∃ groups, e.KeepsText env.config.scanner (resolveSubquery env levels) clause bare param b b' t
      groups := by
  obtain ⟨hvalid, ps, hps, rfl⟩ := runs_resolveExpr h
  have hrun := (Scanner.validate_eq_ok.1 hvalid).run
  obtain ⟨ss, rfl, htext, hss⟩ := resolveFragments_stretches (Fragment.ofText_lexes hrun) hps
  rw [Fragment.flatMap_source_ofText hrun] at htext
  subst htext
  obtain ⟨groups, rfl, hgroups⟩ := exists_groups ss fun x hx u hu => (hss.formed x hx).kept_of_text hu
  refine ⟨groups, rfl, hss, hgroups, fun m hm hq => ?_, fun before after hcut => ?_⟩
  · exact (hss.holdsLiteral (.outside _) hm hq).literals
  · have hbefore : ∀ x ∈ before, Quoting.run env.config.scanner .outside x.source = .outside :=
      fun x hx => (hss.formed x (hcut ▸ List.mem_append_left _ hx)).run_source
    refine ⟨run_text hbefore, ?_⟩
    rw [hcut, Stretch.text, List.flatMap_append]
    exact Text.isValid_byteOffset _ _

namespace Sample

/-- A column, placeholders, a word of the select list, a cast, a literal with a quote and a `?` in it,
a word without meaning, and a subquery. -/
def mixed : Text :=
  ("u.name = ? AND total > 1.5::int OR 'ü''?' <> n " ++
    "AND u.id IN ( SELECT q.user_id FROM Phone q WHERE q.number = ?)").toList

/-- The select list holds an expression `total`. -/
def totals : BareWords where
  output? name := if name = "total" then some (0, 0) else none

theorem resolveExpr_keeps_mixed : ∃ id b, (bindComponent "u" user).Runs {} id b ∧ ∃ e b',
    (resolveExpr compiler.config.scanner (resolveSubquery compiler.toSurroundings 4) .where totals none
      0 mixed).Runs b e b' ∧ e.pieces.length = 10 ∧ ∃ groups,
    e.KeepsText compiler.config.scanner (resolveSubquery compiler.toSurroundings 4) .where totals 0 b b'
      mixed groups := by
  obtain ⟨id, b, hb, e, b', h, hlength⟩ : ∃ id b, (bindComponent "u" user).Runs {} id b ∧ ∃ e b',
      (resolveExpr compiler.config.scanner (resolveSubquery compiler.toSurroundings 4) .where totals
        none 0 mixed).Runs b e b' ∧ e.pieces.length = 10 := by decide +kernel
  exact ⟨id, b, hb, e, b', h, hlength, resolveExpr_keeps_text h⟩

end Sample
end ObjectQuery
