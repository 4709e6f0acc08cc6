import ObjectQuery.Schema.Basic
import ObjectQuery.Schema.Error

/-! # Catalogs

A schema definition is a list of components; a catalog is a definition in which every relation
and discriminator leads to a column that exists.

* `Definition.validate`: the check, which reports the first fault;
* `Catalog`: a definition together with the fact that it passed;
* `Provider`: anything that gives components by name, a catalog in particular. -/

namespace ObjectQuery

/-- Where components come from, by name. -/
abbrev Provider := String → Except CatalogError Component

/-- A schema as it is written. -/
structure Definition where
  name : Option String
  components : List Component
deriving DecidableEq, Repr

/-- The first string that occurs in the list more than once, found at its second occurrence. -/
def firstRepeated : (seen : List String) → List String → Option String
  | _, [] => none
  | seen, s :: rest => if seen.contains s then some s else firstRepeated (s :: seen) rest

namespace Definition

/-- The component with the given name. -/
def component? (d : Definition) (name : String) : Option Component :=
  d.components.find? (·.name == name)

/-- Checks what concerns the columns of one component alone. -/
def validateColumns (c : Component) : Except CatalogError Unit :=
  let invalid (fault : DefinitionFault) : Except CatalogError Unit :=
    .error (.invalidDefinition c.name fault)
  if c.identifier?.isNone then invalid .noPrimaryKey
  else match firstRepeated [] (c.columns.map (·.name)), c.inheritance with
    | some column, _ => invalid (.repeatedColumn column)
    | none, some discriminator =>
      if (c.column? discriminator.column).isNone then
        invalid (.unknownDiscriminator discriminator.column c.table)
      else .ok ()
    | none, none => .ok ()

/-- Checks that `holder` has the column that a relation of `owner` names. -/
def requireColumn (owner holder : Component) (relation : Relation) (column : String) :
    Except CatalogError Unit :=
  if (holder.column? column).isSome then .ok ()
  else .error (.invalidDefinition owner.name (.missingColumn relation.name column holder.name))

/-- Checks one relation of a component. -/
def validateRelation (d : Definition) (c : Component) (r : Relation) : Except CatalogError Unit :=
  let invalid (fault : DefinitionFault) : Except CatalogError Unit :=
    .error (.invalidDefinition c.name fault)
  match d.component? r.target with
  | none => invalid (.unknownTarget r.name r.target)
  | some target =>
    match r.kind with
    | .oneToOne | .oneToMany => do
      requireColumn c c r r.localColumn
      requireColumn c target r r.foreignColumn
    | .manyToMany =>
      match r.bridge with
      | none => invalid (.noBridge r.name)
      | some name =>
        match d.component? name with
        | none => invalid (.unknownBridge r.name name)
        | some bridge => do
          requireColumn c bridge r r.localColumn
          requireColumn c bridge r r.foreignColumn

/-- Checks one component. -/
def validateComponent (d : Definition) (c : Component) : Except CatalogError Unit := do
  validateColumns c
  c.relations.forM (d.validateRelation c)

/-- Checks a definition and reports the first fault. -/
def validate (d : Definition) : Except CatalogError Unit :=
  match firstRepeated [] (d.components.map (·.name)) with
  | some name => .error (.duplicateComponent name)
  | none => d.components.forM d.validateComponent

end Definition

/-- A definition without faults. -/
structure Catalog extends Definition where
  valid : toDefinition.validate = .ok ()

namespace Catalog

/-- The catalog of a definition. -/
def ofDefinition (d : Definition) : Except CatalogError Catalog :=
  match h : d.validate with
  | .ok () => .ok ⟨d, h⟩
  | .error e => .error e

/-- The component with the given name. -/
def describe (c : Catalog) : Provider := fun name =>
  match c.component? name with
  | some component => .ok component
  | none => .error (.unknownComponent name)

/-- The names of the components, ascending. -/
def componentNames (c : Catalog) : List String :=
  (c.components.map (·.name)).mergeSort fun a b => a ≤ b

end Catalog

/-- The provider of a list of components that nothing has checked; of several components with one
name the last counts. -/
def Provider.ofComponents (components : List Component) : Provider := fun name =>
  match components.reverse.find? (·.name == name) with
  | some component => .ok component
  | none => .error (.unknownComponent name)

end ObjectQuery
