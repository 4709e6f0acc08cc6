import ObjectQuery.Document.Reader
import ObjectQuery.Schema.Catalog

/-! # Reading schema definitions

A definition is a record with a list of components. A missing column type is `string`, a missing
flag is false, and a missing list of relations is empty. -/

namespace ObjectQuery

/-- The kind under its written name. -/
def RelationKind.ofName? : String → Option RelationKind
  | "one_to_one" => some oneToOne
  | "one_to_many" => some oneToMany
  | "many_to_many" => some manyToMany
  | _ => none

/-- The written name of a kind. -/
def RelationKind.name : RelationKind → String
  | oneToOne => "one_to_one"
  | oneToMany => "one_to_many"
  | manyToMany => "many_to_many"

section

open DataTree

variable {δ : Type} [DataTree δ]

/-- The kind that a string names. -/
def RelationKind.decode? (d : δ) : Option RelationKind := do
  RelationKind.ofName? (← string? d)

/-- A column. -/
def Column.decode? (d : δ) : Option Column := do
  let es ← fields? d
  return {
    name := ← es.required "name" string?
    field := ← es.optional "field" string?
    type := ← es.withDefault "type" string? "string"
    primary := ← es.withDefault "primary" bool? false }

/-- A discriminator; its value may be anything, `null` included. -/
def Discriminator.decode? (d : δ) : Option Discriminator := do
  let es ← fields? d
  return {
    column := ← es.required "column" string?
    value := ← es.required "value" value? }

/-- A relation. -/
def Relation.decode? (d : δ) : Option Relation := do
  let es ← fields? d
  return {
    name := ← es.required "name" string?
    kind := ← es.required "kind" RelationKind.decode?
    target := ← es.required "target" string?
    localColumn := ← es.required "local" string?
    foreignColumn := ← es.required "foreign" string?
    bridge := ← es.optional "bridge" string?
    orderBy := ← es.optional "order_by" string?
    bridgeOrderBy := ← es.optional "ref_order_by" string?
    cascadeDelete := ← es.withDefault "cascade_delete" bool? false
    directed := ← es.withDefault "directed" bool? false }

/-- A component. -/
def Component.decode? (d : δ) : Option Component := do
  let es ← fields? d
  return {
    name := ← es.required "name" string?
    table := ← es.required "table" string?
    columns := ← es.required "columns" (listOf? Column.decode?)
    relations := ← es.withDefault "relations" (listOf? Relation.decode?) []
    inheritance := ← es.optional "inheritance" Discriminator.decode?
    orderBy := ← es.optional "order_by" string? }

/-- A definition. -/
def Definition.decode? (d : δ) : Option Definition := do
  let es ← fields? d
  return {
    name := ← es.optional "name" string?
    components := ← es.required "components" (listOf? Component.decode?) }

end

/-- The definition that a document holds. -/
def Definition.read (text : String) : Except CatalogError Definition :=
  match Document.read text >>= Definition.decode? with
  | some d => .ok d
  | none => .error .malformed

/-- The catalog of the definition that a document holds. -/
def Catalog.read (text : String) : Except CatalogError Catalog := do
  Catalog.ofDefinition (← Definition.read text)

end ObjectQuery
