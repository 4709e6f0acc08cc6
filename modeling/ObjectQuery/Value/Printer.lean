import ObjectQuery.Value.Basic

/-! # The compact text of a value

JSON without blanks. In a string the quote, the backslash and the control characters are
escaped, and every other character stands for itself. -/

namespace ObjectQuery

/-- The text of a character inside a quoted string. -/
def escapeChar (c : Char) : List Char :=
  if c == '"' then ['\\', '"']
  else if c == '\\' then ['\\', '\\']
  else if c == '\n' then ['\\', 'n']
  else if c == '\r' then ['\\', 'r']
  else if c == '\t' then ['\\', 't']
  else if c.toNat == 0x08 then ['\\', 'b']
  else if c.toNat == 0x0C then ['\\', 'f']
  else if c.toNat < 0x20 then
    ['\\', 'u', '0', '0', Nat.digitChar (c.toNat / 16), Nat.digitChar (c.toNat % 16)]
  else [c]

/-- A string between quotes, with its characters escaped. -/
def quoteString (s : String) : String :=
  String.ofList ('"' :: s.toList.flatMap escapeChar ++ ['"'])

namespace Value

mutual

/-- The compact JSON text of a value. -/
def render : Value → String
  | null => "null"
  | bool b => if b then "true" else "false"
  | int n => toString n
  | decimal d => d.render
  | string s => quoteString s
  | array items => "[" ++ renderItems items ++ "]"
  | object fields => "\x7b" ++ renderFields fields ++ "\x7d"

/-- The items of an array, separated by commas. -/
def renderItems : List Value → String
  | [] => ""
  | [v] => render v
  | v :: vs => render v ++ "," ++ renderItems vs

/-- The fields of an object, separated by commas. -/
def renderFields : List (String × Value) → String
  | [] => ""
  | [(n, v)] => quoteString n ++ ":" ++ render v
  | (n, v) :: fs => quoteString n ++ ":" ++ render v ++ "," ++ renderFields fs

end

end Value
end ObjectQuery
