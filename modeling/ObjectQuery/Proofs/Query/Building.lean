import ObjectQuery.Proofs.Query.Composed

/-! # A query that is put together is read again

The text of a query that was put together from texts without keywords is read as the clauses that it
was put together from, unless its `FROM` list is faulty. When every condition came with the values
of its placeholders, the values of the query are in the order of the placeholders.

* `QueryBuilder.Call`: the steps of putting a query together;
* `QueryBuilder.content`, `QueryBuilder.toText_eq`: the clauses of the text;
* `QueryBuilder.Fit`, `QueryBuilder.Counted`: what every step keeps;
* `QueryBuilder.parse_toText`: reading the text. -/

namespace ObjectQuery

open Scanner (Blank)

variable {s : Scanner} {t u : Text} {c : Clause} {n : Nat} {ts : List Text} {q : QueryBuilder}

/-! ## The steps -/

namespace QueryBuilder

/-- One step of putting a query together. -/
inductive Call
  | forComponent (component userAlias : Text)
  | select (items : Text)
  | selectDistinct
  | from (component : Text)
  | leftJoin (join : Text)
  | innerJoin (join : Text)
  | where (condition : Text) (params : List Value)
  | andWhere (condition : Text) (params : List Value)
  | groupBy (items : Text)
  | having (condition : Text) (params : List Value)
  | orderBy (items : Text)
  | limit (n : Nat)
  | offset (n : Nat)

/-- The query after the step. -/
def Call.apply (q : QueryBuilder) : Call → QueryBuilder
  | forComponent component userAlias => .forComponent component userAlias
  | select items => q.select items
  | selectDistinct => q.selectDistinct
  | «from» component => q.from component
  | leftJoin join => q.leftJoin join
  | innerJoin join => q.innerJoin join
  | «where» condition params => q.where condition params
  | andWhere condition params => q.andWhere condition params
  | groupBy items => q.groupBy items
  | having condition params => q.having condition params
  | orderBy items => q.orderBy items
  | limit n => q.limit n
  | offset n => q.offset n

/-- The query after some steps. -/
def ofCalls (calls : List Call) : QueryBuilder := calls.foldl Call.apply {}

end QueryBuilder

/-- The text can be part of a clause: it says something, its quotes and parentheses are balanced, and
no keyword is among its words. -/
structure Scanner.Usable (s : Scanner) (t : Text) : Prop where
  ne_nil : Text.trim t ≠ []
  valid : s.validate t = .ok ()
  noKeyword : ∀ ws, s.words t = .ok ws → NoKeyword ws

instance (s : Scanner) (t : Text) : Decidable (s.Usable t) :=
  decidable_of_iff (Text.trim t ≠ [] ∧ s.validate t = .ok () ∧ ∀ ws, s.words t = .ok ws → NoKeyword ws)
    ⟨fun ⟨hne, hvalid, hws⟩ => ⟨hne, hvalid, hws⟩, fun ⟨hne, hvalid, hws⟩ => ⟨hne, hvalid, hws⟩⟩

theorem Scanner.Usable.balanced (h : s.Usable t) : s.Balanced t := validate_eq_ok.1 h.valid

theorem Scanner.Usable.keyless (h : s.Usable t) : s.Keyless t :=
  ⟨h.balanced, h.noKeyword _ (words_eq_topWords h.balanced)⟩

namespace QueryBuilder

/-- The text of the step can be part of a clause. -/
def Call.Fits (s : Scanner) : Call → Prop
  | forComponent component userAlias => s.Usable (component ++ ' ' :: userAlias)
  | select t | «from» t | leftJoin t | innerJoin t | «where» t _ | andWhere t _ | groupBy t
  | having t _ | orderBy t => s.Usable t
  | limit n | offset n => n < countBound
  | selectDistinct => True

instance (s : Scanner) : DecidablePred (Call.Fits s)
  | .forComponent .. | .select _ | .from _ | .leftJoin _ | .innerJoin _ | .where .. | .andWhere ..
  | .groupBy _ | .having .. | .orderBy _ => inferInstanceAs (Decidable (s.Usable _))
  | .limit n | .offset n => inferInstanceAs (Decidable (n < countBound))
  | .selectDistinct => isTrue trivial

/-- A condition comes with the values of its placeholders; no other text has any. -/
def Call.Counted (s : Scanner) : Call → Prop
  | «where» t params | andWhere t params | having t params => s.placeholders t = .ok params.length
  | forComponent component userAlias => s.placeholders (component ++ ' ' :: userAlias) = .ok 0
  | select t | «from» t | leftJoin t | innerJoin t | groupBy t | orderBy t =>
    s.placeholders t = .ok 0
  | selectDistinct | limit _ | offset _ => True

instance (s : Scanner) : DecidablePred (Call.Counted s)
  | .forComponent .. | .select _ | .from _ | .leftJoin _ | .innerJoin _ | .where .. | .andWhere ..
  | .groupBy _ | .having .. | .orderBy _ => inferInstanceAs (Decidable (s.placeholders _ = .ok _))
  | .limit _ | .offset _ | .selectDistinct => isTrue trivial

/-- All texts of the query can be parts of clauses. -/
structure Fit (s : Scanner) (q : QueryBuilder) : Prop where
  selectItems : ∀ t ∈ q.selectItems, s.Usable t
  sources : ∀ t ∈ q.sources, s.Usable t
  joins : ∀ t ∈ q.joins, s.IsJoin t
  conditions : ∀ t ∈ q.conditions, s.Usable t
  groupItems : ∀ t ∈ q.groupItems, s.Usable t
  groupConditions : ∀ t ∈ q.groupConditions, s.Usable t
  orderItems : ∀ t ∈ q.orderItems, s.Usable t
  limitCount : ∀ n ∈ q.limitCount, n < countBound
  offsetCount : ∀ n ∈ q.offsetCount, n < countBound

/-- The conditions of the query have as many placeholders as it has values for them; no other text
has any. -/
structure Counted (s : Scanner) (q : QueryBuilder) : Prop where
  selectItems : ∀ t ∈ q.selectItems, s.count t = 0
  sources : ∀ t ∈ q.sources, s.count t = 0
  joins : ∀ t ∈ q.joins, s.count t = 0
  conditions : (q.conditions.map s.count).sum = q.filterParams.length
  groupItems : ∀ t ∈ q.groupItems, s.count t = 0
  groupConditions : (q.groupConditions.map s.count).sum = q.havingParams.length
  orderItems : ∀ t ∈ q.orderItems, s.count t = 0

theorem fit_empty : Fit s {} :=
  ⟨nofun, nofun, nofun, nofun, nofun, nofun, nofun, nofun, nofun⟩

theorem counted_empty : Counted s {} := ⟨nofun, nofun, nofun, rfl, nofun, rfl, nofun⟩

theorem forall_mem_concat {P : Text → Prop} (h : ∀ t ∈ ts, P t) (hu : P u) :
    ∀ t ∈ ts ++ [u], P t :=
  List.forall_mem_append.2 ⟨h, List.forall_mem_singleton.2 hu⟩

/-- A step with a fitting text keeps a query fit. -/
theorem Fit.apply {call : Call} (h : q.Fit s) (hcall : call.Fits s) : (call.apply q).Fit s := by
  cases call with
  | forComponent component userAlias =>
    exact { fit_empty with sources := List.forall_mem_singleton.2 hcall }
  | select items => exact { h with selectItems := forall_mem_concat h.selectItems hcall }
  | selectDistinct => exact { h with }
  | «from» component => exact { h with sources := forall_mem_concat h.sources hcall }
  | leftJoin join =>
    exact { h with joins := forall_mem_concat h.joins ⟨join, hcall.keyless, .inl rfl⟩ }
  | innerJoin join =>
    exact { h with joins := forall_mem_concat h.joins ⟨join, hcall.keyless, .inr rfl⟩ }
  | «where» condition params => exact { h with conditions := List.forall_mem_singleton.2 hcall }
  | andWhere condition params =>
    exact { h with conditions := forall_mem_concat h.conditions hcall }
  | groupBy items => exact { h with groupItems := forall_mem_concat h.groupItems hcall }
  | having condition params =>
    exact { h with groupConditions := forall_mem_concat h.groupConditions hcall }
  | orderBy items => exact { h with orderItems := forall_mem_concat h.orderItems hcall }
  | limit n => exact { h with limitCount := fun k hk => Option.some.inj hk ▸ hcall }
  | offset n => exact { h with offsetCount := fun k hk => Option.some.inj hk ▸ hcall }

/-- A step whose condition comes with its values keeps the numbers the same. -/
theorem Counted.apply {call : Call} (h : q.Counted s) (hcall : call.Counted s) :
    (call.apply q).Counted s := by
  have hcount {t : Text} {n : Nat} (h : s.placeholders t = .ok n) : s.count t = n :=
    (Scanner.placeholders_eq_ok.1 h).2
  have hjoin {k : Text} (hk : Tame k) {t : Text} (h : s.placeholders t = .ok 0) :
      s.count (k ++ t) = 0 := by
    have hk : s.Neutral k := hk.neutral
    rw [Scanner.count_append hk.1.run, hk.2, hcount h]
  cases call with
  | forComponent component userAlias =>
    exact { counted_empty with sources := List.forall_mem_singleton.2 (hcount hcall) }
  | select items => exact { h with selectItems := forall_mem_concat h.selectItems (hcount hcall) }
  | «from» component => exact { h with sources := forall_mem_concat h.sources (hcount hcall) }
  | leftJoin join =>
    exact { h with joins := forall_mem_concat h.joins (hjoin (by decide) hcall) }
  | innerJoin join =>
    exact { h with joins := forall_mem_concat h.joins (hjoin (by decide) hcall) }
  | «where» condition params =>
    exact { h with conditions := (Nat.add_zero _).trans (hcount hcall) }
  | andWhere condition params =>
    have hsum : ((q.conditions ++ [condition]).map s.count).sum =
        (q.filterParams ++ params).length := by
      simp [h.conditions, hcount hcall]
    exact { h with conditions := hsum }
  | groupBy items => exact { h with groupItems := forall_mem_concat h.groupItems (hcount hcall) }
  | having condition params =>
    have hsum : ((q.groupConditions ++ [condition]).map s.count).sum =
        (q.havingParams ++ params).length := by
      simp [h.groupConditions, hcount hcall]
    exact { h with groupConditions := hsum }
  | orderBy items => exact { h with orderItems := forall_mem_concat h.orderItems (hcount hcall) }
  | selectDistinct | limit | offset => exact { h with }

theorem fit_ofCalls {calls : List Call} (h : ∀ call ∈ calls, call.Fits s) :
    (ofCalls calls).Fit s :=
  calls.foldlRecOn Call.apply fit_empty fun _ hq call hcall => hq.apply (h call hcall)

theorem counted_ofCalls {calls : List Call} (h : ∀ call ∈ calls, call.Counted s) :
    (ofCalls calls).Counted s :=
  calls.foldlRecOn Call.apply counted_empty fun _ hq call hcall => hq.apply (h call hcall)

/-! ## The clauses of the text -/

/-- The text of a list of items. -/
def listText : List Text → Option Text
  | [] => none
  | items => some (", ".toList.intercalate items)

/-- The text of some conditions. -/
def conditionText : List Text → Option Text
  | [] => none
  | conditions => some (conjunction conditions)

/-- The text of the sources with the joins after them. -/
def fromText (q : QueryBuilder) : Text :=
  [' '].intercalate (", ".toList.intercalate q.sources :: q.joins)

/-- What stands after the keyword of a clause. -/
def content (q : QueryBuilder) : Clause → Option Text
  | .select =>
    (listText q.selectItems).map fun t => if q.distinct then "DISTINCT ".toList ++ t else t
  | .from => some q.fromText
  | .where => conditionText q.conditions
  | .groupBy => listText q.groupItems
  | .having => conditionText q.groupConditions
  | .orderBy => listText q.orderItems
  | .limit => q.limitCount.map fun n => (toString n).toList
  | .offset => q.offsetCount.map fun n => (toString n).toList
  | .query | .join | .indexBy => none

/-- The clauses in the order of the text. -/
def clauseOrder : List Clause :=
  [.select, .from, .where, .groupBy, .having, .orderBy, .limit, .offset]

/-- The clauses of the text with what stands after their keywords. -/
def contents (q : QueryBuilder) (cs : List Clause) : List (Clause × Text) :=
  cs.filterMap fun c => (q.content c).map (c, ·)

/-- The number of placeholders in a clause. -/
def placeholders (q : QueryBuilder) (s : Scanner) (c : Clause) : Nat :=
  ((q.content c).map s.count).getD 0

/-- The number of placeholders before a clause. -/
def before (q : QueryBuilder) (s : Scanner) (c : Clause) : Nat :=
  ((clauseOrder.takeWhile (· ≠ c)).map (q.placeholders s)).sum

theorem listClause_eq (keyword : String) (items : List Text) :
    listClause keyword items = ((listText items).map fun t => keyword.toList ++ t).toList := by
  cases items <;> rfl

theorem conditionClause_eq (keyword : String) (conditions : List Text) :
    conditionClause keyword conditions =
      ((conditionText conditions).map fun t => keyword.toList ++ t).toList := by
  cases conditions <;> rfl

/-- The text of a clause, if the query has it. -/
def clauseText (q : QueryBuilder) (c : Clause) : List Text :=
  ((q.content c).map fun t => c.name.toList ++ ' ' :: t).toList

theorem composed_contents (cs : List Clause) :
    composed (q.contents cs) = [' '].intercalate (cs.flatMap q.clauseText) := by
  rw [composed]
  congr 1
  induction cs with
  | nil => rfl
  | cons c cs ih =>
    rw [contents, List.filterMap_cons, List.flatMap_cons, ← ih, clauseText]
    cases q.content c <;> rfl

theorem clauses_eq (h : q.sources ≠ []) :
    q.clauses = q.clauseText .select ++
      (("FROM ".toList ++ ", ".toList.intercalate q.sources) :: q.joins) ++
      [.where, .groupBy, .having, .orderBy, .limit, .offset].flatMap q.clauseText := by
  have hselect : listClause (if q.distinct then "SELECT DISTINCT " else "SELECT ") q.selectItems =
      q.clauseText .select := by
    rw [clauseText, content]
    cases q.selectItems <;> cases q.distinct <;> rfl
  have hfrom : listClause "FROM " q.sources =
      ["FROM ".toList ++ ", ".toList.intercalate q.sources] := by
    obtain ⟨source, sources, hsources⟩ := List.exists_cons_of_ne_nil h
    rw [hsources]
    rfl
  have hwhere : conditionClause "WHERE " q.conditions = q.clauseText .where :=
    conditionClause_eq _ _
  have hgroup : listClause "GROUP BY " q.groupItems = q.clauseText .groupBy := listClause_eq _ _
  have hhaving : conditionClause "HAVING " q.groupConditions = q.clauseText .having :=
    conditionClause_eq _ _
  have horder : listClause "ORDER BY " q.orderItems = q.clauseText .orderBy := listClause_eq _ _
  have hlimit : countClause "LIMIT " q.limitCount = q.clauseText .limit := by
    rw [clauseText, content, Option.map_map]
    cases q.limitCount <;> rfl
  have hoffset : countClause "OFFSET " q.offsetCount = q.clauseText .offset := by
    rw [clauseText, content, Option.map_map]
    cases q.offsetCount <;> rfl
  rw [clauses, hselect, hfrom, hwhere, hgroup, hhaving, horder, hlimit, hoffset]
  simp

/-- The text of the query is that of its clauses; the joins are part of the `FROM` clause. -/
theorem toText_eq (h : q.sources ≠ []) : q.toText = composed (q.contents clauseOrder) := by
  rw [toText, clauses_eq h, Scanner.intercalate_merge (List.cons_ne_nil _ _),
    Scanner.intercalate_append_cons, composed_contents, List.append_assoc]
  rfl

theorem count_contents (cs : List Clause) :
    ((q.contents cs).map fun x => s.count x.2).sum = (cs.map (q.placeholders s)).sum := by
  induction cs with
  | nil => rfl
  | cons c cs ih =>
    rw [contents, List.filterMap_cons, List.map_cons, List.sum_cons, ← ih, placeholders]
    cases q.content c with
    | none => exact (Nat.zero_add _).symm
    | some t => rfl

/-- The segment of a clause: its trimmed text after the placeholders of the clauses before it. -/
theorem mem_sections (hc : q.content c = some t) :
    (c, ⟨Text.trim t, q.before s c⟩) ∈ composedSections s 0 (q.contents clauseOrder) := by
  obtain ⟨rest, horder⟩ : ∃ rest, clauseOrder = clauseOrder.takeWhile (· ≠ c) ++ c :: rest := by
    cases c with
    | query | join | indexBy => cases hc
    | select | «from» | «where» | groupBy | having | orderBy | limit | offset => exact ⟨_, rfl⟩
  have hcons : q.contents (c :: rest) = (c, t) :: q.contents rest := by
    rw [contents, List.filterMap_cons, hc]
    rfl
  have hsplit : q.contents clauseOrder =
      q.contents (clauseOrder.takeWhile (· ≠ c)) ++ (c, t) :: q.contents rest := by
    conv => lhs; rw [horder]
    rw [← hcons]
    exact List.filterMap_append
  rw [hsplit, composedSections_append, count_contents, Nat.zero_add]
  exact List.mem_append_right _ List.mem_cons_self

theorem mem_contents {x : Clause × Text} {cs : List Clause} (h : x ∈ q.contents cs) :
    q.content x.1 = some x.2 := by
  obtain ⟨c, -, hx⟩ := List.mem_filterMap.1 h
  obtain ⟨t, ht, rfl⟩ := Option.map_eq_some_iff.1 hx
  exact ht

theorem contents_sublist (cs : List Clause) : ((q.contents cs).map (·.1)).Sublist cs := by
  induction cs with
  | nil => exact .slnil
  | cons c cs ih =>
    rw [contents, List.filterMap_cons]
    cases q.content c with
    | none => exact ih.cons c
    | some t => exact ih.cons_cons c

/-! ## What the clauses consist of -/

theorem listText_eq_some (h : listText ts = some t) :
    ts ≠ [] ∧ t = ", ".toList.intercalate ts := by
  cases ts with
  | nil => cases h
  | cons u ts =>
    cases h
    exact ⟨nofun, rfl⟩

theorem conditionText_eq_some (h : conditionText ts = some t) : ts ≠ [] ∧ t = conjunction ts := by
  cases ts with
  | nil => cases h
  | cons u ts =>
    cases h
    exact ⟨nofun, rfl⟩

theorem composable_listText (hc : c.keyword ≠ []) (hts : ∀ t ∈ ts, s.Usable t)
    (h : listText ts = some t) : Composable s (c, t) := by
  obtain ⟨hne, rfl⟩ := listText_eq_some h
  exact ⟨hc, .list hne fun t ht => (hts t ht).keyless,
    trim_intercalate_ne_nil hne fun t ht => (hts t ht).ne_nil⟩

theorem composable_conditionText (hc : c.keyword ≠ []) (hts : ∀ t ∈ ts, s.Usable t)
    (h : conditionText ts = some t) : Composable s (c, t) := by
  obtain ⟨hne, rfl⟩ := conditionText_eq_some h
  exact ⟨hc, .conjunction hne fun t ht => (hts t ht).keyless,
    trim_conjunction_ne_nil hne fun t ht => (hts t ht).ne_nil⟩

theorem whole_distinct : s.Whole "DISTINCT".toList := Scanner.whole_of_all nofun rfl

/-- Every clause of a fit query can be written. -/
theorem Fit.composable (h : q.Fit s) (hsource : q.sources ≠ []) (hc : q.content c = some t) :
    Composable s (c, t) := by
  cases c with
  | select =>
    obtain ⟨u, hu, rfl⟩ := Option.map_eq_some_iff.1 hc
    have hlist : Composable s (.select, u) := composable_listText nofun h.selectItems hu
    split
    · refine ⟨nofun, hlist.keyless.word_blank whole_distinct fun c => by cases c <;> decide, ?_⟩
      exact Text.trim_append_ne_nil (t := "DISTINCT ".toList) (by decide) u
    · exact hlist
  | «from» =>
    cases hc
    have hlist : Composable s (.from, ", ".toList.intercalate q.sources) := by
      obtain ⟨source, sources, hsources⟩ := List.exists_cons_of_ne_nil hsource
      exact composable_listText nofun h.sources (by rw [hsources]; rfl)
    refine ⟨nofun, hlist.keyless.joins h.joins, ?_⟩
    rw [fromText, ← List.append_nil (", ".toList.intercalate _), Scanner.intercalate_append_cons]
    exact Text.trim_append_ne_nil hlist.ne_nil _
  | «where» => exact composable_conditionText nofun h.conditions hc
  | having => exact composable_conditionText nofun h.groupConditions hc
  | groupBy => exact composable_listText nofun h.groupItems hc
  | orderBy => exact composable_listText nofun h.orderItems hc
  | limit | offset =>
    obtain ⟨n, -, rfl⟩ := Option.map_eq_some_iff.1 hc
    refine ⟨nofun, keyless_toString n, ?_⟩
    rw [trim_toString]
    exact toString_ne_nil n
  | query | join | indexBy => cases hc

/-! ## Placeholders -/

theorem sum_count_eq_zero (h : ∀ t ∈ ts, s.count t = 0) : (ts.map s.count).sum = 0 := by
  refine List.sum_eq_zero fun n hn => ?_
  obtain ⟨t, ht, rfl⟩ := List.mem_map.1 hn
  exact h t ht

theorem count_listText (hts : ∀ t ∈ ts, s.Usable t) :
    ((listText ts).map s.count).getD 0 = (ts.map s.count).sum := by
  have hcomma : Tame ", ".toList := by decide
  cases ts with
  | nil => rfl
  | cons t ts => exact Scanner.count_intercalate hcomma.neutral fun t ht => (hts t ht).balanced

theorem count_conditionText (hts : ∀ t ∈ ts, s.Usable t) :
    ((conditionText ts).map s.count).getD 0 = (ts.map s.count).sum := by
  cases ts with
  | nil => rfl
  | cons t ts => exact Scanner.count_conjunction fun t ht => (hts t ht).balanced

theorem count_number (k : Option Nat) :
    ((k.map fun n => (toString n).toList).map s.count).getD 0 = 0 := by
  cases k with
  | none => rfl
  | some n =>
    have hn : Tame (toString n).toList :=
      tame_of_isNameChar fun _ hc => isNameChar_of_mem_toString hc
    exact hn.neutral.2

theorem balanced_join (h : s.IsJoin t) : s.Balanced t := by
  have hleft : Tame "LEFT JOIN ".toList := by decide
  have hinner : Tame "INNER JOIN ".toList := by decide
  obtain ⟨u, hu, rfl | rfl⟩ := h
  · exact hleft.neutral.1.append hu.balanced
  · exact hinner.neutral.1.append hu.balanced

/-- Only conditions have placeholders. -/
theorem Counted.placeholders_eq (h : q.Counted s) (hfit : q.Fit s) (c : Clause) :
    q.placeholders s c = match c with
      | .where => q.filterParams.length
      | .having => q.havingParams.length
      | _ => 0 := by
  cases c with
  | select =>
    have hdistinct : Tame "DISTINCT ".toList := by decide
    have hkeyword : s.Neutral "DISTINCT ".toList := hdistinct.neutral
    have hcount : s.count ∘ (fun t => if q.distinct then "DISTINCT ".toList ++ t else t) =
        s.count := by
      funext t
      dsimp only [Function.comp]
      split
      · rw [Scanner.count_append hkeyword.1.run, hkeyword.2, Nat.zero_add]
      · rfl
    rw [placeholders, content, Option.map_map, hcount, count_listText hfit.selectItems]
    exact sum_count_eq_zero h.selectItems
  | «from» =>
    have hcomma : Tame ", ".toList := by decide
    have hspace : Tame [' '] := by decide
    have hsources : s.Balanced (", ".toList.intercalate q.sources) :=
      Scanner.balanced_intercalate hcomma.neutral.1 fun t ht => (hfit.sources t ht).balanced
    have hlist : s.count (", ".toList.intercalate q.sources) = (q.sources.map s.count).sum :=
      Scanner.count_intercalate hcomma.neutral fun t ht => (hfit.sources t ht).balanced
    refine (Scanner.count_intercalate hspace.neutral ?_).trans ?_
    · exact List.forall_mem_cons.2 ⟨hsources, fun t ht => balanced_join (hfit.joins t ht)⟩
    · rw [List.map_cons, List.sum_cons, hlist, sum_count_eq_zero h.sources, sum_count_eq_zero h.joins]
  | «where» => exact (count_conditionText hfit.conditions).trans h.conditions
  | having => exact (count_conditionText hfit.groupConditions).trans h.groupConditions
  | groupBy => exact (count_listText hfit.groupItems).trans (sum_count_eq_zero h.groupItems)
  | orderBy => exact (count_listText hfit.orderItems).trans (sum_count_eq_zero h.orderItems)
  | limit | offset => exact count_number _
  | query | join | indexBy => rfl

/-! ## Reading the text -/

/-- The first word that is selected is not `DISTINCT`. -/
def SelectsPlainly (q : QueryBuilder) (s : Scanner) : Prop :=
  ∀ t ∈ q.selectItems.head?, ∀ ws, s.words t = .ok ws →
    ∀ w ∈ ws.head?, w.isWord "DISTINCT" = false

theorem SelectsPlainly.head (hplain : q.SelectsPlainly s) (h : ∀ t ∈ q.selectItems, s.Usable t)
    (ht : listText q.selectItems = some t) :
    ∀ w ∈ (s.topWords t).head?, w.isWord "DISTINCT" = false := by
  obtain ⟨-, rfl⟩ := listText_eq_some ht
  rw [SelectsPlainly] at hplain
  cases hitems : q.selectItems with
  | nil => exact nofun
  | cons u us =>
    rw [hitems] at h hplain
    have hu := h u List.mem_cons_self
    have hfirst := hplain u rfl _ (Scanner.words_eq_topWords hu.balanced)
    cases us with
    | nil =>
      rw [List.intercalate_singleton]
      exact hfirst
    | cons v us =>
      rw [List.intercalate_cons_cons, List.append_assoc]
      intro w hw
      rcases Scanner.head_topWords_comma hu.balanced _ w hw with hw | hcomma
      · exact hfirst w hw
      · exact Text.isWord_eq_false_of_mem hcomma (by decide) (by decide)

/-- The `SELECT` clause is read as it was put together. -/
theorem readDistinct_content (hfit : q.Fit s) (hplain : q.SelectsPlainly s)
    (ht : q.content .select = some t) : ∃ u, listText q.selectItems = some u ∧
      readDistinct s ⟨Text.trim t, n⟩ = .ok (q.distinct, ⟨Text.trim u, n⟩) := by
  obtain ⟨u, hu, rfl⟩ := Option.map_eq_some_iff.1 ht
  have hlist : Composable s (.select, u) := composable_listText nofun hfit.selectItems hu
  refine ⟨u, hu, ?_⟩
  split
  · rename_i hd
    rw [show "DISTINCT ".toList ++ u = "DISTINCT".toList ++ ' ' :: u from rfl, hd]
    exact readDistinct_trim_distinct whole_distinct rfl hlist.keyless.balanced hlist.ne_nil
  · rename_i hd
    rw [Bool.eq_false_of_not_eq_true hd]
    exact readDistinct_trim hlist.keyless.balanced (hplain.head hfit.selectItems hu)

/-- Of the clauses only `FROM` can be faulty. -/
theorem read_failsIn (hfit : q.Fit s) (hplain : q.SelectsPlainly s) (hc : q.content c = some t)
    (d : Draft) : FailsIn [.from, .join, .indexBy] (d.read s c ⟨Text.trim t, n⟩) := by
  cases c with
  | select =>
    obtain ⟨u, -, hread⟩ := readDistinct_content (n := n) hfit hplain hc
    rw [Draft.read, hread]
    exact .ok
  | «from» => exact FromList.read_failsIn.bind fun _ => .ok
  | limit =>
    obtain ⟨k, hk, rfl⟩ := Option.map_eq_some_iff.1 hc
    rw [Draft.read, trim_toString, readCount_toString (hfit.limitCount k hk)]
    exact .ok
  | offset =>
    obtain ⟨k, hk, rfl⟩ := Option.map_eq_some_iff.1 hc
    rw [Draft.read, trim_toString, readCount_toString (hfit.offsetCount k hk)]
    exact .ok
  | «where» | groupBy | having | orderBy | query | join | indexBy => exact .ok

end QueryBuilder

/-- The query has a clause as it was put together: the trimmed text after the placeholders of the
clauses before it. -/
def Query.Agrees (s : Scanner) (p : Query) (q : QueryBuilder) : Clause → Prop
  | .select => p.distinct = (q.distinct && !q.selectItems.isEmpty) ∧
      p.select = (QueryBuilder.listText q.selectItems).map (⟨Text.trim ·, q.before s .select⟩)
  | .from => FromList.read s ⟨Text.trim q.fromText, q.before s .from⟩ = .ok p.source
  | .where => p.filter = (q.content .where).map (⟨Text.trim ·, q.before s .where⟩)
  | .groupBy => p.groupBy = (q.content .groupBy).map (⟨Text.trim ·, q.before s .groupBy⟩)
  | .having => p.having = (q.content .having).map (⟨Text.trim ·, q.before s .having⟩)
  | .orderBy => p.orderBy = (q.content .orderBy).map (⟨Text.trim ·, q.before s .orderBy⟩)
  | .limit => p.limit = q.limitCount
  | .offset => p.offset = q.offsetCount
  | .query | .join | .indexBy => True

namespace QueryBuilder

/-- A clause that was read is as it was put together. -/
theorem agrees_of_read {d₀ d₁ d : Draft} {source : FromList} {k : Nat} (hfit : q.Fit s)
    (hplain : q.SelectsPlainly s) (hc : q.content c = some t)
    (hread : d₀.read s c ⟨Text.trim t, q.before s c⟩ = .ok d₁) (hsame : d₁.Same d c)
    (hsource : d.source = some source) :
    Query.Agrees s { d.toClauseTexts with source, placeholders := k } q c := by
  cases c with
  | select =>
    obtain ⟨u, hu, hdistinct⟩ := readDistinct_content (n := q.before s .select) hfit hplain hc
    rw [Draft.read, hdistinct] at hread
    cases hread
    obtain ⟨hd, hs⟩ := hsame
    have hne : q.selectItems.isEmpty = false := List.isEmpty_eq_false_iff.2 (listText_eq_some hu).1
    exact ⟨by rw [hne]; simpa using hd, by rw [hu]; exact hs⟩
  | «from» =>
    cases hc
    obtain ⟨f, hf, hread⟩ := Except.bind_eq_ok.1 hread
    cases hread
    cases hsource.symm.trans hsame
    exact hf
  | «where» | groupBy | having | orderBy =>
    cases hread
    rw [Query.Agrees, hc]
    exact hsame
  | limit =>
    obtain ⟨n, hn, rfl⟩ := Option.map_eq_some_iff.1 hc
    rw [Draft.read, trim_toString, readCount_toString (hfit.limitCount n hn)] at hread
    cases hread
    exact Eq.trans hsame hn.symm
  | offset =>
    obtain ⟨n, hn, rfl⟩ := Option.map_eq_some_iff.1 hc
    rw [Draft.read, trim_toString, readCount_toString (hfit.offsetCount n hn)] at hread
    cases hread
    exact Eq.trans hsame hn.symm
  | query | join | indexBy => cases hc

/-- A clause that was not put together is not there. -/
theorem agrees_of_same {d : Draft} {source : FromList} {k : Nat} (hc : q.content c = none)
    (hsame : Draft.Same {} d c) :
    Query.Agrees s { d.toClauseTexts with source, placeholders := k } q c := by
  cases c with
  | select =>
    have hlist : listText q.selectItems = none := Option.map_eq_none_iff.1 hc
    have hnone : q.selectItems = [] := by
      cases h : q.selectItems with
      | nil => rfl
      | cons u us =>
        rw [h] at hlist
        cases hlist
    obtain ⟨hd, hs⟩ := hsame
    rw [Query.Agrees, hnone]
    exact ⟨by simpa using hd, hs⟩
  | «from» => cases hc
  | «where» | groupBy | having | orderBy =>
    rw [Query.Agrees, hc]
    exact hsame
  | limit | offset => exact Eq.trans hsame (Option.map_eq_none_iff.1 hc).symm
  | query | join | indexBy => trivial

theorem readSections_failsIn (hfit : q.Fit s) (hplain : q.SelectsPlainly s) (cs : List Clause)
    (d : Draft) : FailsIn [.from, .join, .indexBy]
      (Draft.readSections s d (composedSections s n (q.contents cs))) := by
  refine error_of_foldlM (fun y hy d => ?_) d
  obtain ⟨x, hx, k, rfl⟩ := exists_of_mem_composedSections hy
  exact read_failsIn hfit hplain (mem_contents hx) d

/-- Reading the text of a fit query. -/
theorem Fit.parse (hfit : q.Fit s) (hsource : q.sources ≠ []) (hplain : q.SelectsPlainly s) :
    FailsIn [.from, .join, .indexBy] (Query.parse s q.toText) ∧
      ∀ p, Query.parse s q.toText = .ok p → (∀ c, p.Agrees s q c) ∧
        p.placeholders = (clauseOrder.map (q.placeholders s)).sum := by
  have hall : ∀ x ∈ q.contents clauseOrder, Composable s x := fun x hx =>
    hfit.composable hsource (mem_contents hx)
  have hnodup : ((q.contents clauseOrder).map (·.1)).Nodup :=
    (contents_sublist clauseOrder).nodup (by decide)
  have hfrom : (Clause.from, ⟨Text.trim q.fromText, q.before s .from⟩) ∈
      composedSections s 0 (q.contents clauseOrder) := mem_sections rfl
  have hne : q.contents clauseOrder ≠ [] := by
    intro hnone
    rw [hnone] at hfrom
    cases hfrom
  rw [toText_eq hsource, Query.parse_composed hne hall hnodup, count_composed hall, count_contents]
  have hsections := readSections_failsIn (n := 0) hfit hplain clauseOrder {}
  cases hread : Draft.readSections s {} (composedSections s 0 (q.contents clauseOrder)) with
  | error e =>
    obtain ⟨clause, hclause, fault, rfl⟩ := hsections e hread
    exact ⟨.error hclause, fun p hp => by cases hp⟩
  | ok d =>
    obtain ⟨hheld, hother⟩ := Draft.readSections_spec hread (by rwa [composedSections_clauses])
    obtain ⟨source, hd⟩ : ∃ source, d.source = some source := by
      obtain ⟨d₀, d₁, hd₁, hsame⟩ := hheld _ hfrom
      obtain ⟨f, -, hd₁⟩ := Except.bind_eq_ok.1 hd₁
      cases hd₁
      exact ⟨f, hsame⟩
    simp only [bind, Except.bind, hd]
    refine ⟨.ok, fun p hp => ?_⟩
    cases hp
    refine ⟨fun c => ?_, rfl⟩
    cases hc : q.content c with
    | some t =>
      obtain ⟨d₀, d₁, hd₁, hsame⟩ := hheld _ (mem_sections hc)
      exact agrees_of_read hfit hplain hc hd₁ hsame hd
    | none =>
      refine agrees_of_same hc (hother c fun hmem => ?_)
      rw [composedSections_clauses] at hmem
      obtain ⟨x, hx, rfl⟩ := List.mem_map.1 hmem
      cases hc.symm.trans (mem_contents hx)

end QueryBuilder

/-! ## Values -/

/-- The values at the ordinals of the placeholders of a segment. -/
def Segment.values (s : Scanner) (params : List Value) (g : Segment) : List (Option Value) :=
  (List.range' g.firstParam (s.count g.text)).map (params[·]?)

theorem map_getElem?_range' (xs ys zs : List Value) :
    (List.range' xs.length ys.length).map ((xs ++ ys ++ zs)[·]?) = ys.map some := by
  refine List.ext_getElem (by simp) fun i h _ => ?_
  have hi : i < ys.length := by simpa using h
  rw [List.getElem_map, List.getElem_map, List.getElem_range', Nat.one_mul, List.append_assoc,
    List.getElem?_append_right (Nat.le_add_right _ _), Nat.add_sub_cancel_left,
    List.getElem?_append_left hi, List.getElem?_eq_getElem hi]

theorem Scanner.count_trim (h : s.Balanced t) : s.count (Text.trim t) = s.count t := by
  obtain ⟨l, r, ht, hl, hr⟩ := Text.exists_trim t
  conv => rhs; rw [ht, List.append_assoc, count_append (balanced_blanks hl).run, count_blanks hl,
    count_append h.trim.run, count_blanks hr, Nat.zero_add, Nat.add_zero]

namespace QueryBuilder

/-- The values of a clause with conditions are those that the conditions came with. -/
theorem values_content {xs ys : List Value} (zs : List Value)
    (hc : ∀ t, q.content c = some t → s.Balanced t) (hbefore : q.before s c = xs.length)
    (hcount : q.placeholders s c = ys.length) :
    ((q.content c).map (⟨Text.trim ·, q.before s c⟩ : Text → Segment)).toList.flatMap
      (·.values s (xs ++ ys ++ zs)) = ys.map some := by
  rw [placeholders] at hcount
  cases h : q.content c with
  | none =>
    rw [h] at hcount
    rw [List.length_eq_zero_iff.1 hcount.symm]
    rfl
  | some t =>
    rw [h] at hcount
    have hn : s.count t = ys.length := hcount
    rw [Option.map_some, Option.toList_some, List.flatMap_singleton, Segment.values, hbefore,
      Scanner.count_trim (hc t h), hn, map_getElem?_range']

/-- The values of the query are those of its placeholders, in the order of the text. -/
theorem Counted.values (h : q.Counted s) (hfit : q.Fit s) (hsource : q.sources ≠ []) {p : Query}
    (hp : ∀ c, p.Agrees s q c) :
    (p.filter.toList ++ p.having.toList).flatMap (·.values s q.params) = q.params.map some := by
  have hbalanced (c : Clause) (t : Text) (hc : q.content c = some t) : s.Balanced t :=
    (hfit.composable hsource hc).keyless.balanced
  have hcount := h.placeholders_eq hfit
  have hwhere : q.before s .where = ([] : List Value).length := by
    change q.placeholders s .select + (q.placeholders s .from + 0) = 0
    simp only [hcount, Nat.add_zero]
  have hhaving : q.before s .having = q.filterParams.length := by
    change q.placeholders s .select + (q.placeholders s .from + (q.placeholders s .where +
      (q.placeholders s .groupBy + 0))) = q.filterParams.length
    simp only [hcount, Nat.zero_add, Nat.add_zero]
  have hfilter := values_content q.havingParams (hbalanced .where) hwhere (hcount .where)
  have hgroups := values_content [] (hbalanced .having) hhaving (hcount .having)
  rw [List.append_nil] at hgroups
  rw [List.flatMap_append, show p.filter = _ from hp .where, show p.having = _ from hp .having, params,
    List.map_append]
  exact congrArg₂ _ hfilter hgroups

/-- The text of a query that was put together step by step is read as the clauses it was put
together from, unless its `FROM` list is faulty. When every condition came with the values of its
placeholders, the values of the query are in the order of the placeholders. -/
theorem parse_toText {calls : List Call} (hfits : ∀ call ∈ calls, call.Fits s)
    (hsource : (ofCalls calls).sources ≠ []) (hplain : (ofCalls calls).SelectsPlainly s) :
    FailsIn [.from, .join, .indexBy] (Query.parse s (ofCalls calls).toText) ∧
      ∀ p, Query.parse s (ofCalls calls).toText = .ok p → (∀ c, p.Agrees s (ofCalls calls) c) ∧
        ((∀ call ∈ calls, call.Counted s) → p.placeholders = (ofCalls calls).params.length ∧
          (p.filter.toList ++ p.having.toList).flatMap (·.values s (ofCalls calls).params) =
            (ofCalls calls).params.map some) := by
  have hfit := fit_ofCalls hfits
  obtain ⟨hfails, hparse⟩ := hfit.parse hsource hplain
  refine ⟨hfails, fun p hp => ?_⟩
  obtain ⟨hagrees, hplaceholders⟩ := hparse p hp
  refine ⟨hagrees, fun hcalls => ?_⟩
  have hcounted := counted_ofCalls hcalls
  refine ⟨?_, hcounted.values hfit hsource hagrees⟩
  rw [hplaceholders, params, List.length_append]
  simp [clauseOrder, hcounted.placeholders_eq hfit]

theorem parse_toText_conditions :
    let calls : List Call := [.forComponent "User".toList "u".toList, .select " u.name".toList,
      .leftJoin "u.phones p".toList, .where "u.id = ?".toList [.null],
      .where "u.id > ?".toList [.null],
      .andWhere "p.number IN ('FROM', ?)".toList [.bool true], .groupBy "u.id".toList,
      .having "COUNT(p.id) = ?".toList [.bool false], .limit 10]
    let q := ofCalls calls
    (∀ call ∈ calls, call.Fits {}) ∧ (∀ call ∈ calls, call.Counted {}) ∧ q.sources ≠ [] ∧
      q.SelectsPlainly {} ∧ q.params = [.null, .bool true, .bool false] ∧
      ∃ p, Query.parse {} q.toText = .ok p ∧ (∀ c, p.Agrees {} q c) ∧
        p.placeholders = q.params.length ∧
        (p.filter.toList ++ p.having.toList).flatMap (·.values {} q.params) = q.params.map some := by
  intro calls q
  have hfits : ∀ call ∈ calls, call.Fits {} := by decide +kernel
  have hcounted : ∀ call ∈ calls, call.Counted {} := by decide +kernel
  have hplain : q.SelectsPlainly {} := by
    rw [SelectsPlainly]
    decide +kernel
  have hsource : q.sources ≠ [] := List.cons_ne_nil _ _
  obtain ⟨p, hp, -⟩ : ∃ p, Query.parse {} q.toText = .ok p ∧ p.limit = some 10 := by
    decide +kernel
  obtain ⟨hagrees, hvalues⟩ := (parse_toText hfits hsource hplain).2 p hp
  obtain ⟨hplaceholders, hvalues⟩ := hvalues hcounted
  exact ⟨hfits, hcounted, hsource, hplain, rfl, p, hp, hagrees, hplaceholders, hvalues⟩

/-- Texts that can be parts of clauses each for itself make a keyword where they meet. -/
theorem forComponent_orders :
    let component := "User u ORDER".toList
    let userAlias := "BY u.id".toList
    let q := ofCalls [.forComponent component userAlias]
    Scanner.Usable {} component ∧ Scanner.Usable {} userAlias ∧ q.sources ≠ [] ∧
      q.selectItems = [] ∧ q.orderItems = [] ∧
      ∃ p, Query.parse {} q.toText = .ok p ∧ p.orderBy = some ⟨"u.id".toList, 0⟩ := by
  decide +kernel

end QueryBuilder
end ObjectQuery
