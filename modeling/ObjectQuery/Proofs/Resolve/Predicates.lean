import ObjectQuery.Proofs.Text.Names
import ObjectQuery.Resolve.Join

/-! # What relations demand

The predicates of a relation are conjunctions. Where a relation holds in either direction, the two
alternatives stand between parentheses.

* `Conjoined`: pieces that are conjuncts one after the other;
* `structuralPredicate_conjoined`, `extraPredicates_conjoined`: the predicates of relations. -/

namespace ObjectQuery

variable {left right source target bridge : AliasId} {leftColumn rightColumn : String}
  {ps first second : List Piece} {r : Relation} {c : Component} {e : Expr}

/-- The piece is a text without parentheses and quotes, or a column. -/
def Piece.Flat : Piece → Prop
  | .text t => Tame t
  | .column .. => True
  | .output .. | .placeholder _ | .subquery _ | .discriminator .. => False

/-- Pieces that are conjuncts with `AND` between them: tests, comparisons of columns, and groups. -/
inductive Conjoined : List Piece → Prop
  | nil : Conjoined []
  | test {id : AliasId} {d : Discriminator} : Conjoined [.discriminator id d]
  | comparison {left right : AliasId} {leftColumn rightColumn : String} {op : Text}
    (hop : op ∈ ["=".toList, "!=".toList]) :
    Conjoined [.column left leftColumn, .text (' ' :: (op ++ [' '])), .column right rightColumn]
  | group {ps : List Piece} (h : ∀ p ∈ ps, p.Flat) :
    Conjoined (.text ['('] :: (ps ++ [.text [')']]))
  | and {ps qs : List Piece} (hp : Conjoined ps) (hq : Conjoined qs) :
    Conjoined (ps ++ .text " AND ".toList :: qs)

/-- The expression is a conjunction. -/
def Expr.Conjoined (e : Expr) : Prop := ∃ ps, ObjectQuery.Conjoined ps ∧ e = .plain ps

theorem conjoined_equation : Conjoined (equation left leftColumn right rightColumn) := by
  have hop : "=".toList ∈ ["=".toList, "!=".toList] := List.mem_cons_self
  exact .comparison hop

theorem flat_equation : ∀ p ∈ equation left leftColumn right rightColumn, p.Flat := by
  have heq : Tame " = ".toList := by decide
  intro p hp
  simp only [equation, List.mem_cons, List.not_mem_nil, or_false] at hp
  rcases hp with rfl | rfl | rfl
  · trivial
  · exact heq
  · trivial

theorem conjoined_alternatives (hf : ∀ p ∈ first, p.Flat) (hs : ∀ p ∈ second, p.Flat) :
    Conjoined (alternatives first second) := by
  have hor : Tame " OR ".toList := by decide
  have hflat : ∀ p ∈ first ++ .text " OR ".toList :: second, p.Flat :=
    List.forall_mem_append.2 ⟨hf, List.forall_mem_cons.2 ⟨hor, hs⟩⟩
  simpa [alternatives] using Conjoined.group hflat

theorem Conjoined.plain (h : Conjoined ps) : (Expr.plain ps).Conjoined := ⟨ps, h, rfl⟩

theorem structuralPredicate_conjoined (self : Bool) :
    (structuralPredicate source target self r).Conjoined := by
  simp only [structuralPredicate]
  split
  · exact (conjoined_alternatives flat_equation flat_equation).plain
  · exact conjoined_equation.plain

theorem bridgePredicate_conjoined {key : String} (symmetric : Bool) :
    (bridgePredicate source bridge key symmetric r).Conjoined := by
  simp only [bridgePredicate]
  split
  · exact (conjoined_alternatives flat_equation flat_equation).plain
  · exact (Conjoined.group flat_equation).plain

theorem targetPredicate_conjoined {key : String} (symmetric : Bool) :
    (targetPredicate target bridge key symmetric r).Conjoined := by
  simp only [targetPredicate]
  split
  · exact (conjoined_alternatives flat_equation flat_equation).plain
  · exact conjoined_equation.plain

theorem conjoined_joinPieces {pss : List (List Piece)} (h : ∀ ps ∈ pss, Conjoined ps) :
    Conjoined (joinPieces " AND ".toList pss) := by
  induction pss with
  | nil => exact .nil
  | cons ps pss ih =>
    obtain ⟨hps, hpss⟩ := List.forall_mem_cons.1 h
    cases pss with
    | nil => exact hps
    | cons qs pss => exact .and hps (ih hpss)

theorem exclusion_conjoined : (exclusion target source c).Conjoined := by
  have hop : "!=".toList ∈ ["=".toList, "!=".toList] := List.mem_cons_of_mem _ List.mem_cons_self
  refine (conjoined_joinPieces fun ps hps => ?_).plain
  obtain ⟨key, -, rfl⟩ := List.mem_map.1 hps
  exact .comparison hop

theorem extraPredicates_conjoined {self : Bool} (he : e ∈ extraPredicates target source self c) :
    e.Conjoined := by
  rcases List.mem_append.1 he with he | he
  · split at he
    · rw [List.mem_singleton.1 he]
      exact exclusion_conjoined
    · cases he
  · obtain ⟨d, -, rfl⟩ := List.mem_map.1 he
    exact Conjoined.test.plain

end ObjectQuery
