import ObjectQuery.Plan.Basic

/-! # Equality of expressions

Two expressions are equal when they consist of equal pieces; `Expr.decEq` decides it, through
subqueries as well. -/

namespace ObjectQuery

mutual

/-- Decides equality of pieces. -/
def Piece.decEq : (a b : Piece) → Decidable (a = b)
  | .text t, b => match b with
    | .text u => decidable_of_iff (t = u) (by simp)
    | .column .. | .output .. | .placeholder _ | .subquery _ | .discriminator .. => isFalse nofun
  | .column a c, b => match b with
    | .column a' c' => decidable_of_iff (a = a' ∧ c = c') (by simp)
    | .text _ | .output .. | .placeholder _ | .subquery _ | .discriminator .. => isFalse nofun
  | .output o n, b => match b with
    | .output o' n' => decidable_of_iff (o = o' ∧ n = n') (by simp)
    | .text _ | .column .. | .placeholder _ | .subquery _ | .discriminator .. => isFalse nofun
  | .placeholder n, b => match b with
    | .placeholder m => decidable_of_iff (n = m) (by simp)
    | .text _ | .column .. | .output .. | .subquery _ | .discriminator .. => isFalse nofun
  | .subquery q, b => match b with
    | .subquery q' =>
      have := q.decEq q'
      decidable_of_iff (q = q') (by simp)
    | .text _ | .column .. | .output .. | .placeholder _ | .discriminator .. => isFalse nofun
  | .discriminator a d, b => match b with
    | .discriminator a' d' => decidable_of_iff (a = a' ∧ d = d') (by simp)
    | .text _ | .column .. | .output .. | .placeholder _ | .subquery _ => isFalse nofun

/-- Decides equality of lists of pieces. -/
def Piece.decEqList : (as bs : List Piece) → Decidable (as = bs)
  | [], [] => isTrue rfl
  | [], _ :: _ | _ :: _, [] => isFalse nofun
  | a :: as, b :: bs =>
    have := a.decEq b
    have := Piece.decEqList as bs
    decidable_of_iff (a = b ∧ as = bs) (by simp)

/-- Decides equality of expressions. -/
def Expr.decEq : (a b : Expr) → Decidable (a = b)
  | ⟨ps, g⟩, ⟨qs, h⟩ =>
    have := Piece.decEqList ps qs
    decidable_of_iff (ps = qs ∧ g = h) (by simp)

/-- Decides equality of expressions that may be missing. -/
def Expr.decEqOption : (a b : Option Expr) → Decidable (a = b)
  | none, none => isTrue rfl
  | none, some _ | some _, none => isFalse nofun
  | some a, some b =>
    have := a.decEq b
    decidable_of_iff (a = b) (by simp)

/-- Decides equality of lists of expressions. -/
def Expr.decEqList : (as bs : List Expr) → Decidable (as = bs)
  | [], [] => isTrue rfl
  | [], _ :: _ | _ :: _, [] => isFalse nofun
  | a :: as, b :: bs =>
    have := a.decEq b
    have := Expr.decEqList as bs
    decidable_of_iff (a = b ∧ as = bs) (by simp)

/-- Decides equality of join conditions. -/
def JoinCondition.decEq : (a b : JoinCondition) → Decidable (a = b)
  | ⟨k, e⟩, ⟨k', e'⟩ =>
    have := e.decEq e'
    decidable_of_iff (k = k' ∧ e = e') (by simp)

/-- Decides equality of join conditions that may be missing. -/
def JoinCondition.decEqOption : (a b : Option JoinCondition) → Decidable (a = b)
  | none, none => isTrue rfl
  | none, some _ | some _, none => isFalse nofun
  | some a, some b =>
    have := a.decEq b
    decidable_of_iff (a = b) (by simp)

/-- Decides equality of join nodes. -/
def JoinNode.decEq : (a b : JoinNode) → Decidable (a = b)
  | ⟨u, s, c, x⟩, ⟨u', s', c', x'⟩ =>
    have := Expr.decEqOption s s'
    have := JoinCondition.decEqOption c c'
    have := Expr.decEqList x x'
    decidable_of_iff (u = u' ∧ s = s' ∧ c = c' ∧ x = x') (by simp)

/-- Decides equality of lists of join nodes. -/
def JoinNode.decEqList : (as bs : List JoinNode) → Decidable (as = bs)
  | [], [] => isTrue rfl
  | [], _ :: _ | _ :: _, [] => isFalse nofun
  | a :: as, b :: bs =>
    have := a.decEq b
    have := JoinNode.decEqList as bs
    decidable_of_iff (a = b ∧ as = bs) (by simp)

/-- Decides equality of join graphs. -/
def JoinGraph.decEq : (a b : JoinGraph) → Decidable (a = b)
  | ⟨r, js⟩, ⟨r', js'⟩ =>
    have := r.decEq r'
    have := JoinNode.decEqList js js'
    decidable_of_iff (r = r' ∧ js = js') (by simp)

/-- Decides equality of select items. -/
def SelectItem.decEq : (a b : SelectItem) → Decidable (a = b)
  | .field f, b => match b with
    | .field f' => decidable_of_iff (f = f') (by simp)
    | .expression .. => isFalse nofun
  | .expression o n e s, b => match b with
    | .expression o' n' e' s' =>
      have := e.decEq e'
      decidable_of_iff (o = o' ∧ n = n' ∧ e = e' ∧ s = s') (by simp)
    | .field _ => isFalse nofun

/-- Decides equality of select lists. -/
def SelectItem.decEqList : (as bs : List SelectItem) → Decidable (as = bs)
  | [], [] => isTrue rfl
  | [], _ :: _ | _ :: _, [] => isFalse nofun
  | a :: as, b :: bs =>
    have := a.decEq b
    have := SelectItem.decEqList as bs
    decidable_of_iff (a = b ∧ as = bs) (by simp)

/-- Decides equality of order terms. -/
def OrderTerm.decEq : (a b : OrderTerm) → Decidable (a = b)
  | ⟨e, d, i⟩, ⟨e', d', i'⟩ =>
    have := e.decEq e'
    decidable_of_iff (e = e' ∧ d = d' ∧ i = i') (by simp)

/-- Decides equality of lists of order terms. -/
def OrderTerm.decEqList : (as bs : List OrderTerm) → Decidable (as = bs)
  | [], [] => isTrue rfl
  | [], _ :: _ | _ :: _, [] => isFalse nofun
  | a :: as, b :: bs =>
    have := a.decEq b
    have := OrderTerm.decEqList as bs
    decidable_of_iff (a = b ∧ as = bs) (by simp)

/-- Decides equality of clause sets. -/
def ClauseSet.decEq : (a b : ClauseSet) → Decidable (a = b)
  | ⟨d, s, f, g, h, o, l, n⟩, ⟨d', s', f', g', h', o', l', n'⟩ =>
    have := SelectItem.decEqList s s'
    have := Expr.decEqOption f f'
    have := Expr.decEqList g g'
    have := Expr.decEqOption h h'
    have := OrderTerm.decEqList o o'
    decidable_of_iff (d = d' ∧ s = s' ∧ f = f' ∧ g = g' ∧ h = h' ∧ o = o' ∧ l = l' ∧ n = n')
      (by simp)

/-- Decides equality of subqueries. -/
def Subquery.decEq : (a b : Subquery) → Decidable (a = b)
  | ⟨g, c, m⟩, ⟨g', c', m'⟩ =>
    have := g.decEq g'
    have := c.decEq c'
    decidable_of_iff (g = g' ∧ c = c' ∧ m = m') (by simp)

end

instance : DecidableEq Piece := Piece.decEq
instance : DecidableEq Expr := Expr.decEq
instance : DecidableEq JoinNode := JoinNode.decEq
instance : DecidableEq JoinGraph := JoinGraph.decEq
instance : DecidableEq SelectItem := SelectItem.decEq
instance : DecidableEq OrderTerm := OrderTerm.decEq
instance : DecidableEq ClauseSet := ClauseSet.decEq
instance : DecidableEq Subquery := Subquery.decEq

end ObjectQuery
