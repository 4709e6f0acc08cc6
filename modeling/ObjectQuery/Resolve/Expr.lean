import ObjectQuery.Plan.Basic
import ObjectQuery.Resolve.Fragment
import ObjectQuery.Resolve.State

/-! # Resolving expressions

Each fragment of an expression becomes pieces: a dotted word is a column of an alias, a bare word
may be a select expression or a column, a placeholder takes the next ordinal, and a subquery is
resolved by whatever resolves queries.

* `BareWords`: what a word without a point may stand for;
* `Fragment.resolve`: the pieces of one fragment;
* `resolveExpr`: a whole expression. -/

namespace ObjectQuery

/-- What a word without a point may stand for. -/
structure BareWords where
  /-- The select expression with the given name. -/
  output? : String → Option (AliasId × Nat) := fun _ => none
  /-- The occurrence whose columns may be named without its alias. -/
  default : Option AliasId := none

/-- The join whose condition is resolved, and the aliases that its `FROM` clause declares. -/
structure JoinScope where
  /-- The path of the join, as written. -/
  join : String
  declared : List String

/-- Resolves the text of a subquery whose first placeholder has the given ordinal, found in the
given clause. -/
abbrev ResolveSubquery := Text → Nat → Clause → Resolve Subquery

/-- The column that a dotted word stands for. -/
def resolveReference (clause : Clause) (join : Option JoinScope) (word : Text) :
    Resolve Piece := do
  let userAlias := String.ofList (word.takeWhile (· != '.'))
  let field := (word.dropWhile (· != '.')).drop 1
  let unknownField := QueryError.unknownField clause userAlias (String.ofList field)
  match ← Resolve.lookup? userAlias with
  | none =>
    match join with
    | some scope =>
      if scope.declared.contains userAlias then throw (.ambiguousJoin clause scope.join userAlias)
      else throw (.unknownAlias clause userAlias)
    | none => throw (.unknownAlias clause userAlias)
  | some id =>
    if field.contains '.' then throw unknownField
    else
      let component ← Resolve.componentOf clause userAlias id
      match component.column? (String.ofList field) with
      | some column => return .column id column.name
      | none => throw unknownField

/-- What a word without a point stands for: a select expression, a column, or itself. -/
def resolveBare (bare : BareWords) (word : Text) : Resolve Piece := do
  if word.isReserved then return .text word
  else
    let name := String.ofList word
    match bare.output? name with
    | some (owner, ordinal) => return .output owner ordinal
    | none =>
      let b ← get
      let column? := do
        let id ← bare.default
        let component ← b.component? id
        let column ← component.column? name
        return (id, column.name)
      match column? with
      | some (id, column) => return .column id column
      | none => return .text word

/-- The pieces of one fragment; `param` is the ordinal of its first placeholder. -/
def Fragment.resolve (subquery : ResolveSubquery) (clause : Clause) (bare : BareWords)
    (join : Option JoinScope) (param : Nat) : Fragment → Resolve (List Piece)
  | .verbatim t => return [.text t]
  | .placeholder => return [.placeholder param]
  | .named t => Resolve.malformed clause (.namedParameter t)
  | .subquery inner => do
    return [.text ['('], .subquery (← subquery inner param clause), .text [')']]
  | .word w called => do
    if w.contains '.' then return [← resolveReference clause join w]
    else if called then return [.text w]
    else return [← resolveBare bare w]

/-- The pieces of fragments that follow one another. -/
def resolveFragments (scanner : Scanner) (subquery : ResolveSubquery) (clause : Clause)
    (bare : BareWords) (join : Option JoinScope) : Nat → List Fragment → Resolve (List Piece)
  | _, [] => return []
  | param, f :: fs => do
    let pieces ← f.resolve subquery clause bare join param
    let rest ← resolveFragments scanner subquery clause bare join
      (param + f.placeholders scanner) fs
    return pieces ++ rest

/-- Resolves the text of an expression, the first placeholder of which has the ordinal `param`. -/
def resolveExpr (scanner : Scanner) (subquery : ResolveSubquery) (clause : Clause)
    (bare : BareWords) (join : Option JoinScope) (param : Nat) (t : Text) : Resolve Expr := do
  Resolve.scanning clause (scanner.validate t)
  let fragments := Fragment.ofText scanner t
  let pieces ← resolveFragments scanner subquery clause bare join param fragments
  return Expr.ofPieces pieces (fragments.any Fragment.isAggregate)

end ObjectQuery
