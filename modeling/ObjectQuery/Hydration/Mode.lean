import ObjectQuery.Text.Name

/-! # Hydration modes and errors -/

namespace ObjectQuery

/-- The form in which rows are handed back. -/
inductive HydrationMode
  /-- Records with their related records. -/
  | record
  /-- The same as nested objects and arrays. -/
  | array
  /-- One flat object per row. -/
  | scalar
deriving DecidableEq, Repr

/-- Why rows cannot be hydrated. -/
inductive HydrationError
  /-- A row lacks a column that the plan reads. -/
  | missingColumn (name column : String)
  | unknownMode (mode : String)
deriving DecidableEq, Repr

/-- The wording of the error. -/
def HydrationError.message : HydrationError → String
  | missingColumn name column =>
    s!"Result row has no column `{column}` (expected for alias `{name}`)"
  | unknownMode mode =>
    s!"Unknown hydration mode `{mode}` (expected record, array or scalar)"

namespace HydrationMode

/-- The name of a mode. -/
def name : HydrationMode → String
  | record => "record"
  | array => "array"
  | scalar => "scalar"

/-- The mode with exactly the given name. -/
def ofName? : String → Option HydrationMode
  | "record" => some record
  | "array" => some array
  | "scalar" => some scalar
  | _ => none

/-- The mode that a text asks for: blanks around it and case do not matter, and `object` is
another word for `record`. -/
def parse (text : String) : Except HydrationError HydrationMode :=
  let word := Text.trim text.toList
  if word.isWord "object" then .ok record
  else match ofName? (String.ofList (word.map Char.toLower)) with
    | some mode => .ok mode
    | none => .error (.unknownMode text)

end HydrationMode
end ObjectQuery
