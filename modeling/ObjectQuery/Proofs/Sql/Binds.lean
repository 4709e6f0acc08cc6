import Mathlib
import ObjectQuery.Sql.Printer

/-! # The values that a statement binds

The ordinals of the values that parts bind, in the order of their places. The values of a statement
are those of its clauses, one clause after the other; whatever is written between them binds none.

* `Sql.Select.binds_parts`: the values of a statement. -/

namespace ObjectQuery
namespace Sql

variable {style : Style} {ps qs : List Part}

/-- The ordinals of the values bound at parts. -/
def binds (ps : List Part) : List Nat := ps.filterMap Part.ordinal?

@[simp] theorem binds_nil : binds [] = [] := rfl

@[simp] theorem binds_append : binds (ps ++ qs) = binds ps ++ binds qs := List.filterMap_append

@[simp] theorem binds_text {t : Text} : binds (.text t :: ps) = binds ps := rfl

@[simp] theorem binds_say {t : String} : binds (say t :: ps) = binds ps := rfl

@[simp] theorem binds_bind {n : Nat} : binds (.bind n :: ps) = n :: binds ps := rfl

theorem binds_separated (separator : String) (pss : List (List Part)) :
    binds (separated separator pss) = pss.flatMap binds := by
  induction pss with
  | nil => rfl
  | cons ps pss ih =>
    cases pss with
    | nil => simp [separated]
    | cons qs pss =>
      show binds (ps ++ say separator :: separated separator (qs :: pss)) = _
      rw [binds_append, binds_say, ih, ← List.flatMap_cons]

@[simp] theorem binds_enclosedParts : binds (enclosedParts ps) = binds ps := by
  simp [enclosedParts]

theorem binds_introduced (introduction separator : String) (pss : List (List Part)) :
    binds (introduced introduction separator pss) = pss.flatMap binds := by
  rw [introduced]
  split
  · rename_i h
    rw [List.isEmpty_iff.1 h]; rfl
  · rw [binds_say, binds_separated]

@[simp] theorem binds_limitParts {ordered : Bool} {limit offset : Option Nat} :
    binds (limitParts style ordered limit offset) = [] := by
  simp only [limitParts]
  split
  · rfl
  · split <;> rfl

/-! ## Statements -/

/-- The ordinals of the values that terms bind. -/
def termBinds (style : Style) (ts : List Term) : List Nat := binds (Term.partsAll style ts)

theorem partsAll_eq (ts : List Term) : Term.partsAll style ts = ts.flatMap (·.parts style) := by
  induction ts with
  | nil => rfl
  | cons t ts ih => rw [Term.partsAll, ih, List.flatMap_cons]

theorem termBinds_cons (t : Term) (ts : List Term) :
    termBinds style (t :: ts) = binds (t.parts style) ++ termBinds style ts := by
  rw [termBinds, Term.partsAll, binds_append]; rfl

theorem binds_partsEach (tss : List (List Term)) :
    (Term.partsEach style tss).flatMap binds = tss.flatMap (termBinds style) := by
  induction tss with
  | nil => rfl
  | cons ts tss ih => rw [Term.partsEach, List.flatMap_cons, List.flatMap_cons, ih, termBinds]

theorem binds_partsOption (ts : Option (List Term)) :
    (Term.partsOption style ts).flatMap binds = ts.toList.flatMap (termBinds style) := by
  cases ts with
  | none => rfl
  | some ts => simp [Term.partsOption, termBinds]

theorem binds_items (is : List Item) :
    (Item.partsEach style is).flatMap binds = is.flatMap fun i => termBinds style i.terms := by
  induction is with
  | nil => rfl
  | cons i is ih =>
    obtain ⟨ts, name⟩ := i
    cases name <;> simp [Item.partsEach, ih, termBinds]

theorem binds_conjuncts (cs : List Conjunct) :
    (Conjunct.partsEach style cs).flatMap binds = cs.flatMap fun c => termBinds style c.terms := by
  induction cs with
  | nil => rfl
  | cons c cs ih =>
    obtain ⟨ts, enclosed⟩ := c
    rw [Conjunct.partsEach, List.flatMap_cons, List.flatMap_cons, ih, termBinds]
    cases enclosed <;> simp

theorem binds_orders (os : List Order) :
    (Order.partsEach style os).flatMap binds = os.flatMap fun o => termBinds style o.terms := by
  induction os with
  | nil => rfl
  | cons o os ih =>
    obtain ⟨ts, direction⟩ := o
    cases direction <;> simp [Order.partsEach, ih, termBinds]

/-- The ordinals of the values that conditions bind. -/
def conjunctBinds (style : Style) (cs : List Conjunct) : List Nat :=
  cs.flatMap fun c => termBinds style c.terms

theorem binds_joins (js : List Join) :
    binds (Join.partsAll style js) = js.flatMap fun j => conjunctBinds style j.on := by
  induction js with
  | nil => rfl
  | cons j js ih =>
    obtain ⟨kind, table, name, on⟩ := j
    rw [Join.partsAll, binds_append, ih, binds_append, binds_introduced, binds_conjuncts,
      List.flatMap_cons]
    rfl

/-- The values of a statement are those of its clauses, in the order they are written. -/
theorem Select.binds_parts (s : Select) : binds (s.parts style) =
    (s.items.flatMap fun i => termBinds style i.terms) ++ binds (s.source.parts style) ++
      (s.joins.flatMap fun j => conjunctBinds style j.on) ++ conjunctBinds style s.filter ++
      s.groupBy.flatMap (termBinds style) ++ s.having.toList.flatMap (termBinds style) ++
      s.orderBy.flatMap fun o => termBinds style o.terms := by
  cases s
  simp only [Select.parts, List.cons_append, binds_say, binds_append, binds_separated,
    binds_introduced, binds_limitParts, binds_items, binds_joins, binds_conjuncts,
    binds_partsEach, binds_partsOption, binds_orders, List.append_nil, conjunctBinds]

end Sql
end ObjectQuery
