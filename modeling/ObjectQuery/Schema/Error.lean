/-! # Errors of a schema catalog

What can be wrong with a schema definition, and what a lookup in a catalog can answer instead of
a component. -/

namespace ObjectQuery

/-- What is wrong with the definition of one component. -/
inductive DefinitionFault
  | noPrimaryKey
  | repeatedColumn (column : String)
  | unknownDiscriminator (column table : String)
  | unknownTarget (relation target : String)
  | noBridge (relation : String)
  | unknownBridge (relation bridge : String)
  | missingColumn (relation column holder : String)
deriving DecidableEq, Repr

/-- The wording of the fault. -/
def DefinitionFault.message : DefinitionFault → String
  | noPrimaryKey => "component declares no primary key column"
  | repeatedColumn column => s!"column `{column}` is declared twice"
  | unknownDiscriminator column table =>
    s!"discriminator column `{column}` is not a column of `{table}`"
  | unknownTarget relation target =>
    s!"relation `{relation}` targets unknown component `{target}`"
  | noBridge relation => s!"many-to-many relation `{relation}` has no bridge component"
  | unknownBridge relation bridge =>
    s!"relation `{relation}` uses unknown bridge component `{bridge}`"
  | missingColumn relation column holder =>
    s!"relation `{relation}` references column `{column}` missing from `{holder}`"

/-- Why there is no catalog, or no component under a name. -/
inductive CatalogError
  | unknownComponent (component : String)
  | duplicateComponent (component : String)
  | invalidDefinition (component : String) (fault : DefinitionFault)
  /-- The definition could not be read from where it is stored. -/
  | unreadable (reason : String)
  /-- The text is not a schema definition. -/
  | malformed
deriving DecidableEq, Repr

/-- The wording of the error. -/
def CatalogError.message : CatalogError → String
  | unknownComponent component => s!"No component schema found for `{component}`"
  | duplicateComponent component => s!"Component `{component}` is defined more than once"
  | invalidDefinition component fault =>
    s!"Invalid definition of component `{component}`: {fault.message}"
  | unreadable reason => s!"Failed to read schema file: {reason}"
  | malformed => "Failed to parse schema definition"

end ObjectQuery
