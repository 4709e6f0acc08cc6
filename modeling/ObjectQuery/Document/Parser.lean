import ObjectQuery.Document.Basic

/-! # Parsing documents

`Document.parse` takes the document at the front of a text. The fields of a map are kept as
written, repeated names included, so that a reader of records can refuse them. -/

namespace ObjectQuery
namespace Document

/-- A blank between the tokens of a document. -/
def isDocumentBlank (c : Char) : Bool := c == ' ' || c == '\n' || c == '\t' || c == '\r'

/-- The text without the blanks it starts with. -/
def skipBlanks (t : Text) : Text := t.dropWhile isDocumentBlank

/-- The rest of the text after a word it starts with. -/
def dropWord? (t : Text) (word : String) : Option Text :=
  let w := word.toList
  if w.isPrefixOf t then some (t.drop w.length) else none

mutual

/-- Parses one value; `fuel` bounds the nesting of calls. -/
def parseNode (rules : Rules) : Nat → Text → Option (Document × Text)
  | 0, _ => none
  | fuel + 1, t =>
    match skipBlanks t with
    | '"' :: rest => do
      let (q, rest) ← Quoted.read rest
      return (.text (String.ofList (← rules.text q)), rest)
    | '[' :: rest =>
      match skipBlanks rest with
      | ']' :: after => some (.list [], after)
      | _ => (parseItems rules fuel rest).map fun r => (.list r.1, r.2)
    | '\x7b' :: rest =>
      match skipBlanks rest with
      | '\x7d' :: after => some (.map [], after)
      | _ => (parseFields rules fuel rest).map fun r => (.map r.1, r.2)
    | 'n' :: rest => (dropWord? rest "ull").map fun r => (.null, r)
    | 't' :: rest => (dropWord? rest "rue").map fun r => (.bool true, r)
    | 'f' :: rest => (dropWord? rest "alse").map fun r => (.bool false, r)
    | other => (Numeral.read other).map fun r => (.number r.1, r.2)

/-- Parses the items of a list up to its closing bracket. -/
def parseItems (rules : Rules) : Nat → Text → Option (List Document × Text)
  | 0, _ => none
  | fuel + 1, t => do
    let (d, rest) ← parseNode rules fuel t
    match skipBlanks rest with
    | ',' :: rest => do
      let (ds, rest) ← parseItems rules fuel rest
      return (d :: ds, rest)
    | ']' :: rest => return ([d], rest)
    | _ => none

/-- Parses the fields of a map up to its closing brace. -/
def parseFields (rules : Rules) : Nat → Text → Option (List (String × Document) × Text)
  | 0, _ => none
  | fuel + 1, t =>
    match skipBlanks t with
    | '"' :: rest => do
      let (q, rest) ← Quoted.read rest
      let (gap, rest) := rest.span isDocumentBlank
      match rest with
      | ':' :: rest => do
        let name ← rules.name q gap
        let (d, rest) ← parseNode rules fuel rest
        let field := (String.ofList name, d)
        match skipBlanks rest with
        | ',' :: rest => do
          let (fs, rest) ← parseFields rules fuel rest
          return (field :: fs, rest)
        | '\x7d' :: rest => return ([field], rest)
        | _ => none
      | _ => none
    | _ => none

end

/-- Parses the document at the front of a text. -/
def parse (rules : Rules) (t : Text) : Option (Document × Text) :=
  parseNode rules (2 * t.length + 2) t

end Document
end ObjectQuery
