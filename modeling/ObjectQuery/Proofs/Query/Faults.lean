import ObjectQuery.Proofs.Success
import ObjectQuery.Query.Parser
import ObjectQuery.Resolve.Item

/-! # What reading a query complains about

A text that is read as a query, or cut into items, may fail for its form alone: no component, alias
or column is looked up (`FailsInForm`). A fault in a `FROM` list is reported for the list, a join of
it, or an index column (`FailsIn`).

* `FromList.read_failsIn`: reading a `FROM` list;
* `Query.parse_failsInForm`: reading a query;
* `segmentItems_failsInForm`: the items of a clause. -/

namespace ObjectQuery

variable {α β : Type} {x : Except QueryError α} {f : α → Except QueryError β} {s : Scanner}
  {clause : Clause} {fault : SyntaxFault} {part : Part} {join : Option JoinKind}
  {words : List Span} {g : Segment} {w : Span} {t : Text}

/-- When the computation fails, then for the form of a text. -/
def FailsInForm (x : Except QueryError α) : Prop :=
  ∀ e, x = .error e → ∃ clause fault, e = .malformed clause fault

/-- When the computation fails, then for the form of a text in one of the clauses. -/
def FailsIn (clauses : List Clause) (x : Except QueryError α) : Prop :=
  ∀ e, x = .error e → ∃ clause ∈ clauses, ∃ fault, e = .malformed clause fault

/-! ## Computations -/

section
variable {P : QueryError → Prop}

/-- The error of a computation of two steps is that of one of them. -/
theorem error_of_bind (hx : ∀ e, x = .error e → P e) (hf : ∀ a e, f a = .error e → P e) :
    ∀ e, x >>= f = .error e → P e := by
  intro e he
  cases x with
  | error e' =>
    cases he
    exact hx e rfl
  | ok a => exact hf a e he

theorem error_of_mapM {as : List α} (hf : ∀ a e, f a = .error e → P e) :
    ∀ e, as.mapM f = .error e → P e := by
  induction as with
  | nil => exact Except.error_of_ok
  | cons a as ih =>
    rw [List.mapM_cons]
    exact error_of_bind (hf a) fun b => error_of_bind ih fun bs => Except.error_of_ok

theorem error_of_foldlM {as : List β} {g : α → β → Except QueryError α}
    (hg : ∀ b ∈ as, ∀ a e, g a b = .error e → P e) : ∀ a e, as.foldlM g a = .error e → P e := by
  induction as with
  | nil => exact fun a => Except.error_of_ok
  | cons b as ih =>
    obtain ⟨hb, hg⟩ := List.forall_mem_cons.1 hg
    exact fun a => error_of_bind (hb a) fun a => ih hg a

end

theorem FailsInForm.ok {a : α} : FailsInForm (.ok a) := Except.error_of_ok

theorem FailsInForm.error : FailsInForm (.error (.malformed clause fault) : Except QueryError α) := by
  rintro _ ⟨⟩
  exact ⟨clause, fault, rfl⟩

theorem failsInForm_inClause {r : Except Fault α} : FailsInForm (Except.inClause clause r) := by
  intro e he
  cases r with
  | ok a => cases he
  | error fault =>
    cases he
    exact ⟨clause, .unbalanced fault, rfl⟩

theorem FailsInForm.bind (hx : FailsInForm x) (hf : ∀ a, FailsInForm (f a)) :
    FailsInForm (x >>= f) :=
  error_of_bind hx hf

theorem failsInForm_mapM {as : List α} (hf : ∀ a, FailsInForm (f a)) :
    FailsInForm (as.mapM f) :=
  error_of_mapM hf

section
variable {clauses : List Clause}

theorem FailsIn.inForm (h : FailsIn clauses x) : FailsInForm x := fun e he => by
  obtain ⟨clause, -, fault, he⟩ := h e he
  exact ⟨clause, fault, he⟩

theorem FailsIn.ok {a : α} : FailsIn clauses (.ok a : Except QueryError α) :=
  Except.error_of_ok

theorem FailsIn.error (hc : clause ∈ clauses) :
    FailsIn clauses (.error (.malformed clause fault) : Except QueryError α) := by
  rintro _ ⟨⟩
  exact ⟨clause, hc, fault, rfl⟩

theorem failsIn_inClause {r : Except Fault α} (hc : clause ∈ clauses) :
    FailsIn clauses (Except.inClause clause r) := by
  intro e he
  cases r with
  | ok a => cases he
  | error fault =>
    cases he
    exact ⟨clause, hc, .unbalanced fault, rfl⟩

theorem FailsIn.bind (hx : FailsIn clauses x) (hf : ∀ a, FailsIn clauses (f a)) :
    FailsIn clauses (x >>= f) :=
  error_of_bind hx hf

theorem failsIn_mapM {as : List α} (hf : ∀ a, FailsIn clauses (f a)) :
    FailsIn clauses (as.mapM f) :=
  error_of_mapM hf

/-! ## The `FROM` clause -/

theorem readPath_failsIn (hc : clause ∈ clauses) : FailsIn clauses (readPath clause join t) := by
  rw [readPath]
  split
  · exact .error hc
  · split
    · split
      · exact .ok
      · exact .error hc
    · split
      · exact .error hc
      · exact .ok

theorem readAlias_failsIn {path : Text} (hc : clause ∈ clauses) :
    FailsIn clauses (readAlias clause t path words) := by
  unfold readAlias
  split
  · exact .ok
  · dsimp only
    split
    · split
      · exact .error hc
      · split
        · exact .ok
        · exact .error hc
    · split <;> exact .ok

theorem readCondition_failsIn (hc : clause ∈ clauses) :
    FailsIn clauses (readCondition s clause join part words) := by
  unfold readCondition
  split
  · exact .ok
  · split
    · exact .ok
    · split
      · exact .error hc
      · dsimp only
        split
        · exact (failsIn_inClause hc).bind fun before => .ok
        · exact .error hc

theorem readIndexBy_failsIn (hc : .indexBy ∈ clauses) : FailsIn clauses (readIndexBy t words) := by
  unfold readIndexBy
  split
  · exact .ok
  · split
    · split
      · exact .error hc
      · exact .ok
    · exact .ok

end

theorem readElement_failsIn :
    FailsIn [.from, .join, .indexBy] (readElement s part join words) := by
  have hc : (if join.isSome then Clause.join else .from) ∈ [Clause.from, .join, .indexBy] := by
    cases join <;> simp
  cases words with
  | nil => exact .error hc
  | cons w words =>
    refine (readPath_failsIn hc).bind fun path => ?_
    refine (readAlias_failsIn hc).bind fun ⟨name, words⟩ => ?_
    refine (readCondition_failsIn hc).bind fun ⟨condition, words⟩ => ?_
    refine (readIndexBy_failsIn (by decide)).bind fun ⟨indexBy, words⟩ => ?_
    cases words with
    | nil => exact .ok
    | cons => exact .error hc

theorem readJoin_failsIn {kind : JoinKind} :
    FailsIn [.from, .join, .indexBy] (readJoin s part kind words) :=
  readElement_failsIn.bind fun _ => .ok

theorem readPart_failsIn : FailsIn [.from, .join, .indexBy] (readPart s g w) := by
  rw [readPart]
  dsimp only
  split
  · exact .error (by decide)
  · exact (failsIn_inClause (by decide)).bind fun words => .ok

theorem readLaterPart_failsIn : FailsIn [.from, .join, .indexBy] (readLaterPart s g w) :=
  readPart_failsIn.bind fun _ => failsIn_mapM fun _ => readJoin_failsIn

theorem FromList.read_failsIn : FailsIn [.from, .join, .indexBy] (FromList.read s g) := by
  refine (failsIn_inClause (by decide)).bind fun spans => ?_
  cases spans with
  | nil => exact .error (by decide)
  | cons span spans =>
    refine readPart_failsIn.bind fun ⟨part, words⟩ => ?_
    refine readElement_failsIn.bind fun root => ?_
    refine (failsIn_mapM fun _ => readJoin_failsIn).bind fun joins => ?_
    exact (failsIn_mapM fun _ => readLaterPart_failsIn).bind fun later => .ok

/-! ## Queries -/

theorem readCount_failsInForm : FailsInForm (readCount clause t) := by
  rw [readCount]
  split
  · exact .ok
  · exact .error

theorem readDistinct_failsInForm : FailsInForm (readDistinct s g) := by
  refine failsInForm_inClause.bind fun words => ?_
  cases words with
  | nil => exact .ok
  | cons first words =>
    dsimp only
    split
    · split
      · exact .error
      · exact .ok
    · exact .ok

theorem Draft.read_failsInForm {d : Draft} : FailsInForm (d.read s clause g) := by
  cases clause with
  | select => exact readDistinct_failsInForm.bind fun _ => .ok
  | «from» => exact FromList.read_failsIn.inForm.bind fun _ => .ok
  | limit | offset => exact readCount_failsInForm.bind fun _ => .ok
  | «where» | groupBy | having | orderBy | query | join | indexBy => exact .ok

theorem Draft.readAll_failsInForm {seen : List Clause} {d : Draft} {ms : List ClauseMark} :
    FailsInForm (Draft.readAll s t seen d ms) := by
  induction ms generalizing seen d with
  | nil => exact .ok
  | cons m ms ih =>
    rw [Draft.readAll]
    split
    · exact .error
    · split
      · exact .error
      · exact failsInForm_inClause.bind fun before => Draft.read_failsInForm.bind fun d => ih

/-- A text that is no query is faulty in its form. -/
theorem Query.parse_failsInForm : FailsInForm (Query.parse s t) := by
  refine failsInForm_inClause.bind fun words => ?_
  cases words with
  | nil => exact .error
  | cons first rest =>
    dsimp only
    split
    · exact .error
    · refine Draft.readAll_failsInForm.bind fun d => ?_
      cases hd : d.source with
      | none => exact .error
      | some source => exact failsInForm_inClause.bind fun n => .ok

/-! ## Items -/

theorem segmentItem_failsInForm {param : Nat} : FailsInForm (segmentItem s clause param g w) := by
  rw [segmentItem]
  split
  · exact .error
  · exact failsInForm_inClause.bind fun before => .ok

theorem segmentItems_failsInForm {param : Nat} : FailsInForm (segmentItems s clause param g) :=
  failsInForm_inClause.bind fun _ => failsInForm_mapM fun _ => segmentItem_failsInForm

end ObjectQuery
