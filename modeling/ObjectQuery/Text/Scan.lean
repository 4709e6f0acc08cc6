import ObjectQuery.Text.Blank

/-! # Scanning outside literals

One left-to-right reading of a text that knows quoted literals and parentheses. `Scanner.scan`
lists as `Mark`s the characters outside literals, together with the opening quote of every
literal, and the first `Fault` met, if any. Everything that cuts query text into pieces goes
through these marks, so a delimiter inside a literal or a group is never taken for a boundary.

* `LiteralState.next`: what a character means while a literal is open;
* `Scanner.scan`: the marks and the fault of a text;
* `Scanner.marks`, `Scanner.validate`: the same as an `Except`. -/

namespace ObjectQuery

/-- Settings of the scanner: whether a backslash inside a literal makes the character after it
content. A doubled quote stands for the quote character either way. -/
structure Scanner where
  /-- A backslash inside a literal makes the next character content. -/
  backslashEscapes : Bool := false
deriving DecidableEq, Repr

/-- A character outside literals, or the opening quote of a literal. -/
structure Mark where
  /-- The number of characters before it. -/
  pos : Nat
  /-- The character. -/
  char : Char
  /-- No parenthesis is open around it; a parenthesis counts as outside its own group. -/
  top : Bool
deriving DecidableEq, Repr

/-- What is wrong with the structure of a text, and where. -/
inductive Fault
  /-- The text ends inside the literal opened here. -/
  | unterminatedQuote (quote : Char) (offset : Nat)
  /-- The text ends and the parenthesis opened here is still open. -/
  | unclosedParenthesis (offset : Nat)
  /-- A closing parenthesis has no partner. -/
  | unexpectedParenthesis (offset : Nat)
deriving DecidableEq, Repr

namespace Fault

/-- Where the fault is. -/
def offset : Fault → Nat
  | unterminatedQuote _ n | unclosedParenthesis n | unexpectedParenthesis n => n

/-- The fault with its offset changed. -/
def mapOffset (f : Nat → Nat) : Fault → Fault
  | unterminatedQuote q n => unterminatedQuote q (f n)
  | unclosedParenthesis n => unclosedParenthesis (f n)
  | unexpectedParenthesis n => unexpectedParenthesis (f n)

/-- The wording of the fault. -/
def message : Fault → String
  | unterminatedQuote q n => s!"unterminated {q} literal starting at offset {n}"
  | unclosedParenthesis n => s!"parenthesis opened at offset {n} is never closed"
  | unexpectedParenthesis n => s!"unexpected closing parenthesis at offset {n}"

end Fault

/-- Where a reading stands with respect to literals. -/
inductive LiteralState
  /-- Outside every literal. -/
  | outside
  /-- Inside the literal opened with `quote` at `start`. -/
  | inside (quote : Char) (start : Nat)
  /-- Inside, right after an escaping backslash: the next character is content. -/
  | escaped (quote : Char) (start : Nat)
  /-- Right after a `quote` that ends the literal unless the same character follows. -/
  | closing (quote : Char) (start : Nat)
deriving DecidableEq, Repr

namespace LiteralState

/-- The state after a character that belongs to the open literal; `none` for a character that
stands outside literals. -/
def next (scanner : Scanner) (c : Char) : LiteralState → Option LiteralState
  | outside => none
  | inside q n =>
    if scanner.backslashEscapes && c == '\\' then some (escaped q n)
    else if c == q then some (closing q n)
    else some (inside q n)
  | escaped q n => some (inside q n)
  | closing q n => if c == q then some (inside q n) else none

end LiteralState

/-- The outcome of a scan: the characters visited, and the fault that ended it, if any. -/
structure Scan where
  /-- The characters outside literals and the opening quotes, in text order. -/
  marks : List Mark
  /-- What is wrong with the text. -/
  fault : Option Fault
deriving DecidableEq, Repr

namespace Scan

/-- The scan with one more mark in front. -/
def visit (m : Mark) (s : Scan) : Scan := ⟨m :: s.marks, s.fault⟩

/-- The scan of an empty rest. -/
def atEnd : LiteralState → List Nat → Scan
  | .inside q n, _ | .escaped q n, _ => ⟨[], some (.unterminatedQuote q n)⟩
  | .outside, n :: _ | .closing _ _, n :: _ => ⟨[], some (.unclosedParenthesis n)⟩
  | .outside, [] | .closing _ _, [] => ⟨[], none⟩

end Scan

namespace Scanner

/-- Scans the rest of a text from position `pos` on; `opens` holds the positions of the open
parentheses, innermost first. -/
def scanFrom (scanner : Scanner) : LiteralState → List Nat → Nat → Text → Scan
  | state, opens, _, [] => .atEnd state opens
  | state, opens, pos, c :: rest =>
    match state.next scanner c with
    | some inner => scanFrom scanner inner opens (pos + 1) rest
    | none =>
      if c == '\'' || c == '"' then
        (scanFrom scanner (.inside c pos) opens (pos + 1) rest).visit ⟨pos, c, opens.isEmpty⟩
      else if c == '(' then
        (scanFrom scanner .outside (pos :: opens) (pos + 1) rest).visit ⟨pos, c, opens.isEmpty⟩
      else if c == ')' then
        match opens with
        | [] => ⟨[], some (.unexpectedParenthesis pos)⟩
        | _ :: outer =>
          (scanFrom scanner .outside outer (pos + 1) rest).visit ⟨pos, c, outer.isEmpty⟩
      else (scanFrom scanner .outside opens (pos + 1) rest).visit ⟨pos, c, opens.isEmpty⟩

/-- The scan of a whole text, with offsets counted in characters. -/
def scan (scanner : Scanner) (t : Text) : Scan := scanner.scanFrom .outside [] 0 t

/-- The marks of a text whose quotes and parentheses are balanced; a fault is reported at its
byte offset. -/
def marks (scanner : Scanner) (t : Text) : Except Fault (List Mark) :=
  match scanner.scan t with
  | ⟨marks, none⟩ => .ok marks
  | ⟨_, some fault⟩ => .error (fault.mapOffset t.byteOffset)

/-- Checks that quotes and parentheses are balanced. -/
def validate (scanner : Scanner) (t : Text) : Except Fault Unit :=
  (scanner.marks t).map fun _ => ()

/-- The number of characters at the front of a text that belong to the open literal. -/
def literalLength (scanner : Scanner) : LiteralState → Text → Nat
  | _, [] => 0
  | state, c :: rest =>
    match state.next scanner c with
    | some inner => scanner.literalLength inner rest + 1
    | none => 0

/-- The position just past the literal whose opening quote, whatever character that is, stands at
position `start`; the end of the text when the literal is never closed. -/
def literalEnd (scanner : Scanner) (t : Text) (start : Nat) : Nat :=
  match t.drop start with
  | [] => t.length
  | q :: rest => start + 1 + scanner.literalLength (.inside q start) rest

/-- The position of the parenthesis that closes the group opening at `start`: the first closing
parenthesis from there on that leaves no group open. -/
def closingParen (scanner : Scanner) (t : Text) (start : Nat) : Except Fault Nat :=
  let tail := t.drop start
  match scanner.scan tail with
  | ⟨marks, fault⟩ =>
    match marks.find? fun m => m.char == ')' && m.top, fault with
    | some m, _ => .ok (start + m.pos)
    | none, some fault => .error (fault.mapOffset (Text.byteOffset tail))
    | none, none => .error (.unclosedParenthesis (t.byteOffset start))

end Scanner
end ObjectQuery
