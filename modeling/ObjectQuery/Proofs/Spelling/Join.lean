import ObjectQuery.Proofs.Scope.From
import ObjectQuery.Proofs.Spelling.Expr

/-! # How the predicates of a relation are spelled

The predicates that a relation demands name columns of the components that it joins. What the schema
calls these columns is copied, so it has to be spelled well there (`Expansion.Spelled`).

* `equation_spelled`, `alternatives_spelled`: pieces of predicates;
* `structuralPredicate_spelled`, `bridgePredicate_spelled`, `targetPredicate_spelled`,
  `extraPredicates_spelled`: the predicates of a relation. -/

namespace ObjectQuery

variable {known : AliasId → Option Component} {ok : Spelling} {visible : Set AliasId}
  {source target bridge left right : AliasId} {c t k : Component} {r : Relation}
  {ps qs : List Piece} {leftColumn rightColumn sourceKey targetKey : String}

theorem equation_spelled (hl : NamesColumn known ok visible left leftColumn)
    (hr : NamesColumn known ok visible right rightColumn) :
    ∀ x ∈ equation left leftColumn right rightColumn, x.Spelled known ok visible := by
  intro x hx
  simp only [equation, List.mem_cons, List.not_mem_nil, or_false] at hx
  rcases hx with rfl | rfl | rfl
  · exact hl
  · trivial
  · exact hr

theorem alternatives_spelled (hp : ∀ x ∈ ps, x.Spelled known ok visible)
    (hq : ∀ x ∈ qs, x.Spelled known ok visible) :
    ∀ x ∈ alternatives ps qs, x.Spelled known ok visible := by
  intro x hx
  simp only [alternatives, List.mem_append, List.mem_singleton] at hx
  rcases hx with (((rfl | hx) | rfl) | hx) | rfl
  · trivial
  · exact hp x hx
  · trivial
  · exact hq x hx
  · trivial

theorem joinPieces_spelled {separator : Text} {pss : List (List Piece)}
    (h : ∀ ps ∈ pss, ∀ x ∈ ps, x.Spelled known ok visible) :
    ∀ x ∈ joinPieces separator pss, x.Spelled known ok visible := by
  induction pss with
  | nil => exact nofun
  | cons ps pss ih =>
    obtain ⟨hps, hpss⟩ := List.forall_mem_cons.1 h
    cases pss with
    | nil => exact hps
    | cons qs pss =>
      exact List.forall_mem_append.2 ⟨hps, List.forall_mem_cons.2 ⟨trivial, ih hpss⟩⟩

theorem Expr.Spelled.plain (h : ∀ x ∈ ps, x.Spelled known ok visible) :
    (Expr.plain ps).Spelled known ok visible :=
  .ofPieces h

section
variable (hs : source ∈ visible) (hc : known source = some c) (ht : target ∈ visible)
  (hct : known target = some t)

include hs hc in
theorem NamesColumn.of_known {column : String} (h : ok c column) :
    NamesColumn known ok visible source column :=
  ⟨hs, c, hc, h⟩

include hs hc ht hct

theorem structuralPredicate_spelled (hx : (Expansion.direct t).Spelled ok c r) :
    (structuralPredicate source target (c.isSelfReferential r) r).Spelled known ok visible := by
  obtain ⟨hlocal, hforeign, hself⟩ := hx
  have hforth := equation_spelled (.of_known hs hc hlocal) (.of_known ht hct hforeign)
  simp only [structuralPredicate]
  split
  · rename_i hr
    simp only [Bool.and_eq_true] at hr
    obtain ⟨hforeign', hlocal', -⟩ := hself hr.1.1
    exact .plain (alternatives_spelled hforth
      (equation_spelled (.of_known hs hc hforeign') (.of_known ht hct hlocal')))
  · exact .plain hforth

theorem extraPredicates_spelled (htest : ∀ test ∈ t.inheritance, ok t test.column)
    (hkeys : ∀ key ∈ t.keyNames, ok t key)
    (hself : c.isSelfReferential r = true → ∀ key ∈ t.keyNames, ok c key) :
    ∀ e ∈ extraPredicates target source (c.isSelfReferential r) t,
      e.Spelled known ok visible := by
  refine List.forall_mem_append.2 ⟨fun e he => ?_, fun e he => ?_⟩
  · split at he
    · rename_i hr
      rw [List.mem_singleton.1 he]
      refine .plain (joinPieces_spelled fun ps hps => ?_)
      obtain ⟨key, hk, rfl⟩ := List.mem_map.1 hps
      refine List.forall_mem_cons.2 ⟨.of_known ht hct (hkeys key hk), List.forall_mem_cons.2
        ⟨trivial, List.forall_mem_singleton.2 (.of_known hs hc (hself hr key hk))⟩⟩
    · cases he
  · obtain ⟨test, hmem, rfl⟩ := List.mem_map.1 he
    refine .plain (List.forall_mem_singleton.2 ?_)
    exact .of_known ht hct (htest test (Option.mem_toList.1 hmem))

end

section
variable (hb : bridge ∈ visible) (hk : known bridge = some k) (hlocal : ok k r.localColumn)
  (hforeign : ok k r.foreignColumn)
include hb hk hlocal hforeign

theorem bridgePredicate_spelled (symmetric : Bool)
    (hs : NamesColumn known ok visible source sourceKey) :
    (bridgePredicate source bridge sourceKey symmetric r).Spelled known ok visible := by
  have hforth := equation_spelled hs (.of_known hb hk hlocal)
  have hback := equation_spelled hs (.of_known hb hk hforeign)
  simp only [bridgePredicate]
  split
  · exact .plain (alternatives_spelled hforth hback)
  · refine .plain (List.forall_mem_append.2 ⟨List.forall_mem_append.2
      ⟨List.forall_mem_singleton.2 trivial, hforth⟩, List.forall_mem_singleton.2 trivial⟩)

theorem targetPredicate_spelled (symmetric : Bool)
    (ht : NamesColumn known ok visible target targetKey) :
    (targetPredicate target bridge targetKey symmetric r).Spelled known ok visible := by
  have hforth := equation_spelled ht (.of_known hb hk hforeign)
  have hback := equation_spelled ht (.of_known hb hk hlocal)
  simp only [targetPredicate]
  split
  · exact .plain (alternatives_spelled hforth hback)
  · exact .plain hforth

end

end ObjectQuery
