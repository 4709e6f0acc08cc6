import ObjectQuery.Proofs.Text.Names
import ObjectQuery.Sql.Printer

/-! # Properties of written statements

A property of parts that holds of tame texts and of names, and that survives putting parts one
after the other and between parentheses (`Compositional`), holds of a statement as soon as it holds
of the expressions in it (`Select.Each.parts`). -/

namespace ObjectQuery
namespace Sql

/-- A property of parts that is preserved by whatever statements are made of; `N` holds of the
names that may be written. -/
structure Compositional (style : Style) (N : String → Prop) (P : List Part → Prop) : Prop where
  nil : P []
  append {ps qs : List Part} : P ps → P qs → P (ps ++ qs)
  enclosed {a b : Text} {ps : List Part} : Tame a → Tame b → P ps →
    P (.text (a ++ ['(']) :: ps ++ [.text (')' :: b)])
  text {t : Text} : (∀ s : Scanner, s.Neutral t) → P [.text t]
  identifier {name : String} : N name → P [.text (style.identifier name)]
  column {qualifier name : String} : N qualifier → N name → P [.text (style.column qualifier name)]

/-! ## Numbers and limits -/

theorem tame_toString (n : Nat) : Tame (toString n).toList :=
  tame_of_isNameChar fun _ hc => isNameChar_of_mem_toString hc

theorem tame_limitClause (d : Dialect) (limit offset : Option Nat) :
    Tame (d.limitClause limit offset).toList := by
  have happ {a b : String} (ha : Tame a.toList) (hb : Tame b.toList) : Tame (a ++ b).toList := by
    rw [String.toList_append]
    exact ha.append hb
  have htext {a : String} {n : Nat} (ha : Tame a.toList) : Tame (a ++ toString n).toList :=
    happ ha (tame_toString n)
  delta Dialect.limitClause
  split
  · split
    · exact happ (happ (happ (htext (by decide)) (by decide)) (tame_toString _)) (by decide)
    · exact happ (htext (by decide)) (by decide)
    · decide
  · split
    · exact happ (happ (htext (by decide)) (by decide)) (tame_toString _)
    · exact htext (by decide)
    · split
      · rename_i n hn
        have hn : Tame n.toList := by cases d <;> cases hn <;> decide
        exact happ (happ (happ (by decide) hn) (by decide)) (tame_toString _)
      · exact htext (by decide)
    · decide

/-- The ordering that means nothing is balanced, though it has parentheses. -/
theorem neutral_ordering (s : Scanner) : s.Neutral " ORDER BY (SELECT NULL)".toList := by
  have horder : Tame " ORDER BY ".toList := by decide
  have hselect : Tame "SELECT NULL".toList := by decide
  exact ⟨horder.neutral.1.append hselect.neutral.1.enclosed, Scanner.count_eq_zero (by decide)⟩

section
variable {style : Style} {N : String → Prop} {P : List Part → Prop} {ps : List Part}
  {pss : List (List Part)}

namespace Compositional

theorem say (h : Compositional style N P) {t : String} (ht : Tame t.toList) : P [say t] :=
  h.text fun _ => ht.neutral

theorem enclosedParts (h : Compositional style N P) (hp : P ps) : P (enclosedParts ps) :=
  h.enclosed .nil .nil hp

theorem cons_say (h : Compositional style N P) {t : String} (ht : Tame t.toList) (hp : P ps) :
    P (Sql.say t :: ps) :=
  h.append (h.say ht) hp

theorem separated (h : Compositional style N P) {separator : String}
    (hs : Tame separator.toList) (hp : ∀ ps ∈ pss, P ps) : P (separated separator pss) := by
  induction pss with
  | nil => exact h.nil
  | cons ps pss ih =>
    obtain ⟨hps, hpss⟩ := List.forall_mem_cons.1 hp
    cases pss with
    | nil => exact hps
    | cons qs pss => exact h.append hps (h.cons_say hs (ih hpss))

theorem introduced (h : Compositional style N P) {introduction separator : String}
    (hi : Tame introduction.toList) (hs : Tame separator.toList) (hp : ∀ ps ∈ pss, P ps) :
    P (introduced introduction separator pss) := by
  rw [Sql.introduced]
  split
  · exact h.nil
  · exact h.cons_say hi (h.separated hs hp)

theorem limitParts (h : Compositional style N P) (ordered : Bool) (limit offset : Option Nat) :
    P (limitParts style ordered limit offset) := by
  simp only [Sql.limitParts]
  split
  · exact h.nil
  · refine h.append ?_ (h.cons_say (by decide) (h.say (tame_limitClause _ _ _)))
    split
    · exact h.text neutral_ordering
    · exact h.nil

end Compositional

/-! ## Statements -/

/-- What has to hold of the constituents of a statement. -/
structure Select.Each (style : Style) (N : String → Prop) (P : List Part → Prop) (s : Select) :
    Prop where
  items : ∀ i ∈ s.items, P (Term.partsAll style i.terms) ∧ ∀ n ∈ i.name, N n
  source : P (s.source.parts style)
  joins : ∀ j ∈ s.joins, N j.table ∧ N j.name ∧ ∀ c ∈ j.on, P (Term.partsAll style c.terms)
  filter : ∀ c ∈ s.filter, P (Term.partsAll style c.terms)
  groupBy : ∀ ts ∈ s.groupBy, P (Term.partsAll style ts)
  having : ∀ ts ∈ s.having, P (Term.partsAll style ts)
  orderBy : ∀ o ∈ s.orderBy, P (Term.partsAll style o.terms) ∧ ∀ d ∈ o.direction, Tame d.toList

theorem Compositional.itemParts (h : Compositional style N P) {is : List Item}
    (hi : ∀ i ∈ is, P (Term.partsAll style i.terms) ∧ ∀ n ∈ i.name, N n) :
    ∀ ps ∈ Item.partsEach style is, P ps := by
  induction is with
  | nil => exact nofun
  | cons i is ih =>
    obtain ⟨⟨hts, hn⟩, hrest⟩ := List.forall_mem_cons.1 hi
    obtain ⟨ts, name⟩ := i
    refine List.forall_mem_cons.2 ⟨h.append hts ?_, ih hrest⟩
    cases name with
    | none => exact h.nil
    | some name => exact h.cons_say (by decide) (h.identifier (hn name rfl))

theorem Compositional.conjunctParts (h : Compositional style N P) {cs : List Conjunct}
    (hc : ∀ c ∈ cs, P (Term.partsAll style c.terms)) : ∀ ps ∈ Conjunct.partsEach style cs, P ps := by
  induction cs with
  | nil => exact nofun
  | cons c cs ih =>
    obtain ⟨hts, hrest⟩ := List.forall_mem_cons.1 hc
    obtain ⟨ts, enclosed⟩ := c
    refine List.forall_mem_cons.2 ⟨?_, ih hrest⟩
    cases enclosed with
    | false => exact hts
    | true => exact h.enclosedParts hts

theorem Compositional.orderParts (h : Compositional style N P) {os : List Order}
    (ho : ∀ o ∈ os, P (Term.partsAll style o.terms) ∧ ∀ d ∈ o.direction, Tame d.toList) :
    ∀ ps ∈ Order.partsEach style os, P ps := by
  induction os with
  | nil => exact nofun
  | cons o os ih =>
    obtain ⟨⟨hts, hd⟩, hrest⟩ := List.forall_mem_cons.1 ho
    obtain ⟨ts, direction⟩ := o
    refine List.forall_mem_cons.2 ⟨h.append hts ?_, ih hrest⟩
    cases direction with
    | none => exact h.nil
    | some d => exact h.cons_say (by decide) (h.say (hd d rfl))

theorem partsEach_eq (tss : List (List Term)) :
    Term.partsEach style tss = tss.map (Term.partsAll style) := by
  induction tss with
  | nil => rfl
  | cons ts tss ih => rw [Term.partsEach, ih, List.map_cons]

theorem Compositional.joinParts (h : Compositional style N P) {js : List Join}
    (hj : ∀ j ∈ js, N j.table ∧ N j.name ∧ ∀ c ∈ j.on, P (Term.partsAll style c.terms)) :
    P (Join.partsAll style js) := by
  induction js with
  | nil => exact h.nil
  | cons j js ih =>
    obtain ⟨⟨ht, hn, hon⟩, hrest⟩ := List.forall_mem_cons.1 hj
    obtain ⟨kind, table, name, on⟩ := j
    refine h.append (h.append ?_ (h.introduced (by decide) (by decide) (h.conjunctParts hon)))
      (ih hrest)
    have hkind : Tame kind.keyword.toList := by cases kind <;> decide
    exact h.cons_say (by decide) (h.cons_say hkind (h.cons_say (by decide)
      (h.append (h.identifier ht) (h.cons_say (by decide) (h.identifier hn)))))

theorem Compositional.table (h : Compositional style N P) {table name : String} (ht : N table)
    (hn : N name) : P (Source.parts style (.table table name)) :=
  h.cons_say (by decide) (h.append (h.identifier ht) (h.cons_say (by decide) (h.identifier hn)))

theorem Compositional.derived (h : Compositional style N P) {s : Select} {name : String}
    {spelled : Bool} (hs : P (s.parts style)) (hn : N name) :
    P (Source.parts style (.derived s name spelled)) := by
  have hclose {b : Text} (hb : Tame b) : P (Sql.say " FROM (" :: s.parts style ++
      [.text (')' :: b), .text (style.identifier name)]) := by
    have := h.append (h.enclosed (a := " FROM ".toList) (by decide) hb hs) (h.identifier hn)
    rwa [List.append_assoc] at this
  cases spelled with
  | false => exact hclose (b := [' ']) (by decide)
  | true => exact hclose (b := " AS ".toList) (by decide)

/-- A property of the constituents of a statement is one of the statement. -/
theorem Select.Each.parts (hP : Compositional style N P) {s : Select} (h : s.Each style N P) :
    P (s.parts style) := by
  obtain ⟨distinct, items, source, joins, filter, groupBy, having, orderBy, limit, offset⟩ := s
  obtain ⟨hitems, hsource, hjoins, hfilter, hgroup, hhaving, horder⟩ := h
  have hg : ∀ ps ∈ Term.partsEach style groupBy, P ps := by
    rw [partsEach_eq]
    exact List.forall_mem_map.2 hgroup
  have hh : ∀ ps ∈ Term.partsOption style having, P ps := by
    cases having with
    | none => exact nofun
    | some ts => exact fun ps hps => List.mem_singleton.1 hps ▸ hP.enclosedParts (hhaving ts rfl)
  rw [Select.parts]
  refine hP.append (hP.append (hP.append (hP.append (hP.append (hP.append (hP.append
    (hP.cons_say ?_ (hP.separated (by decide) (hP.itemParts hitems))) hsource)
    (hP.joinParts hjoins)) (hP.introduced (by decide) (by decide) (hP.conjunctParts hfilter)))
    (hP.introduced (by decide) (by decide) hg)) (hP.introduced (by decide) (by decide) hh))
    (hP.introduced (by decide) (by decide) (hP.orderParts horder))) (hP.limitParts _ _ _)
  cases distinct <;> decide

end
end Sql
end ObjectQuery
