import ObjectQuery.Document.Numeral
import ObjectQuery.Document.Quoted

/-! # Documents

A document in JSON notation, with its quoted texts resolved and its numbers as they are written,
so that a reader of records can still take a number by its text. -/

namespace ObjectQuery

/-- A document or a part of one. -/
inductive Document
  | null
  | bool (b : Bool)
  | number (n : Numeral)
  | text (s : String)
  | list (items : List Document)
  | map (fields : List (String × Document))
deriving Repr, Inhabited

namespace Document

/-- What quoted texts stand for in a kind of document. -/
structure Rules where
  /-- The text of a value. -/
  text : Quoted → Option Text
  /-- The name of a field, also from the blanks between it and its colon. -/
  name : Quoted → Text → Option Text

end Document
end ObjectQuery
