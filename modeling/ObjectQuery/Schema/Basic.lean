import ObjectQuery.Text.Name
import ObjectQuery.Value.Basic

/-! # Components

A component is a table seen as records: its columns under the names of fields, its relations to
other components, and the discriminator that sets its rows apart in a shared table.

* `Component.column?`: the column that a field or column name refers to;
* `Component.relation?`: the relation under a name;
* `Provider`: where components come from. -/

namespace ObjectQuery

/-- How many partners a record has through a relation. -/
inductive RelationKind
  | oneToOne | oneToMany | manyToMany
deriving DecidableEq, Repr

/-- A record may have several partners. -/
def RelationKind.toMany : RelationKind → Bool
  | oneToOne => false
  | oneToMany | manyToMany => true

/-- A column of a component. -/
structure Column where
  /-- The physical name. -/
  name : String
  /-- The name of the field, when it differs. -/
  field : Option String
  type : String
  /-- Part of the primary key. -/
  primary : Bool
deriving DecidableEq, Repr

/-- The name under which records hold the column. -/
def Column.fieldName (c : Column) : String := c.field.getD c.name

/-- The column value that sets the rows of a component apart in a shared table. -/
structure Discriminator where
  column : String
  value : Value
deriving DecidableEq, Repr

/-- A relation from the component that declares it to a target. -/
structure Relation where
  name : String
  kind : RelationKind
  /-- The component on the other side. -/
  target : String
  /-- The column on this side; of the bridge, for a many-to-many relation. -/
  localColumn : String
  /-- The column on the other side; of the bridge, for a many-to-many relation. -/
  foreignColumn : String
  /-- The association component of a many-to-many relation. -/
  bridge : Option String
  /-- The default ordering of the related records. -/
  orderBy : Option String
  /-- The default ordering of the bridge rows. -/
  bridgeOrderBy : Option String
  cascadeDelete : Bool
  /-- For a relation of a component to itself: the two columns are not interchangeable. -/
  directed : Bool
deriving DecidableEq, Repr

/-- A table seen as records. -/
structure Component where
  name : String
  table : String
  columns : List Column
  relations : List Relation
  inheritance : Option Discriminator
  /-- The default ordering of the records. -/
  orderBy : Option String
deriving DecidableEq, Repr

namespace Component

/-- The columns of the primary key. -/
def primaryKeys (c : Component) : List Column := c.columns.filter (·.primary)

/-- The physical names of the columns of the primary key. -/
def keyNames (c : Component) : List String := c.primaryKeys.map (·.name)

/-- The first column of the primary key. -/
def identifier? (c : Component) : Option Column := c.primaryKeys.head?

/-- The physical name belongs to the primary key. -/
def isKey (c : Component) (column : String) : Bool := c.keyNames.contains column

/-- The column with the given field or physical name; without regard to case when no column has
exactly that name. -/
def column? (c : Component) (name : String) : Option Column :=
  let like (n : String) : Bool := Text.sameWord n.toList name.toList
  (c.columns.find? fun col => col.fieldName == name || col.name == name).or
    (c.columns.find? fun col => like col.fieldName || like col.name)

/-- The relation with the given name. -/
def relation? (c : Component) (name : String) : Option Relation :=
  c.relations.find? (·.name == name)

/-- The relation leads back to the component that declares it. -/
def isSelfReferential (c : Component) (r : Relation) : Bool := r.target == c.name

end Component
end ObjectQuery
