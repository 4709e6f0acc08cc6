import ObjectQuery.Alias.Set

/-! # Names for the occurrences of tables

Every occurrence of a table gets a short name from the first letter of the table: `entity` becomes
`e`, the next table with that letter `e2`, and so on. The aliases of a query are bound to
occurrences through a stack of scopes, one per nested query.

* `Resolver.assign`, `Resolver.bind`: a new occurrence, without or with an alias;
* `Resolver.lookup?`: what an alias stands for, the innermost scope first;
* `Resolver.shadow`: a second set of names for some occurrences. -/

namespace ObjectQuery

/-- The names of the occurrences, in order of their numbers. -/
abbrev AliasNames := List String

/-- The name of an occurrence; empty for a number that was never given out. -/
def AliasNames.get (names : AliasNames) (id : AliasId) : String := names.getD id ""

/-- The aliases of one query, the latest first. -/
abbrev AliasScope := List (String × AliasId)

/-- The occurrence bound to an alias. -/
def AliasScope.get? : AliasScope → String → Option AliasId
  | [], _ => none
  | (name, id) :: rest, userAlias =>
    if name == userAlias then some id else AliasScope.get? rest userAlias

/-- An occurrence of a table. -/
structure Occurrence where
  /-- The name in SQL. -/
  name : String
  table : String
deriving DecidableEq, Repr

/-- The occurrences so far, and the aliases in scope. -/
structure Resolver where
  /-- All occurrences, in order of their numbers. -/
  occurrences : List Occurrence := []
  /-- How many names with each first letter have been made. -/
  made : Char → Nat := fun _ => 0
  /-- The aliases of the query at hand. -/
  scope : AliasScope := []
  /-- The aliases of the queries around it, from the inside to the outside. -/
  outer : List AliasScope := []

/-- The letter that the names of a table start with. -/
def nameLetter (table : String) : Char :=
  ((table.toList.find? Char.isAlpha).map Char.toLower).getD 't'

/-- The `n`-th name with a letter; the first one is the letter alone. -/
def numberedName (letter : Char) (n : Nat) : String :=
  String.ofList (letter :: if n = 1 then [] else (toString n).toList)

namespace Resolver

/-- A name that was never made before. -/
def freshName (r : Resolver) (table : String) : String × Resolver :=
  let letter := nameLetter table
  let n := r.made letter + 1
  (numberedName letter n, { r with made := fun c => if c = letter then n else r.made c })

/-- A new occurrence of a table. -/
def assign (r : Resolver) (table : String) : AliasId × Resolver :=
  let (name, r) := r.freshName table
  (r.occurrences.length, { r with occurrences := r.occurrences ++ [⟨name, table⟩] })

/-- The occurrence that the query at hand binds an alias to. -/
def lookupLocal? (r : Resolver) (userAlias : String) : Option AliasId := r.scope.get? userAlias

/-- The occurrence that an alias stands for; an inner query hides what the queries around it
bind. -/
def lookup? (r : Resolver) (userAlias : String) : Option AliasId :=
  (r.scope :: r.outer).findSome? (·.get? userAlias)

/-- Binds an alias in the query at hand to a new occurrence of a table, unless it is bound
there. -/
def bind (r : Resolver) (userAlias table : String) : AliasId × Resolver :=
  match r.lookupLocal? userAlias with
  | some id => (id, r)
  | none =>
    let (id, r) := r.assign table
    (id, { r with scope := (userAlias, id) :: r.scope })

/-- Enters a nested query. -/
def pushScope (r : Resolver) : Resolver := { r with scope := [], outer := r.scope :: r.outer }

/-- Leaves a nested query; the outermost scope is never left. -/
def popScope (r : Resolver) : Resolver :=
  match r.outer with
  | [] => r
  | scope :: outer => { r with scope := scope, outer := outer }

/-- The names of all occurrences. -/
def names (r : Resolver) : AliasNames := r.occurrences.map (·.name)

/-- The name of one occurrence. -/
def name (r : Resolver) (id : AliasId) : String := r.names.get id

/-- Gives new names to the listed occurrences, one after the other, in a table of names. -/
def renameFrom (r : Resolver) (names : AliasNames) : List AliasId → AliasNames × Resolver
  | [] => (names, r)
  | id :: ids =>
    match r.occurrences[id]? with
    | none => renameFrom r names ids
    | some occurrence =>
      let (name, r) := r.freshName occurrence.table
      renameFrom r (names.set id name) ids

/-- The names of all occurrences, with new names for the listed ones. -/
def shadow (r : Resolver) (ids : List AliasId) : AliasNames × Resolver :=
  r.renameFrom r.names ids

end Resolver
end ObjectQuery
