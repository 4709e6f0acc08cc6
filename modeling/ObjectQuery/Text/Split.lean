import ObjectQuery.Text.Scan

/-! # Cutting text at the top level

* `Span`: a range of positions of a text, and the slice it stands for;
* `Scanner.splitSpans`, `Scanner.split`: the pieces between top-level delimiters;
* `Scanner.wordSpans`, `Scanner.words`: the blank-separated words, where a group or a literal is
  never cut;
* `Scanner.placeholders`: how many `?` stand outside literals. -/

namespace ObjectQuery

/-- A range of positions inside a text, counted in characters. -/
structure Span where
  /-- The first position. -/
  start : Nat
  /-- The position after the last one. -/
  stop : Nat
deriving DecidableEq, Repr

namespace Span

/-- The characters of the range. -/
def slice (s : Span) (t : Text) : Text := (t.take s.stop).drop s.start

/-- The range holds no position. -/
def isEmpty (s : Span) : Bool := s.stop ≤ s.start

/-- The range without the blanks at its ends; a range of blanks shrinks to its start. -/
def trimmed (s : Span) (t : Text) : Span :=
  let raw := s.slice t
  let kept := Text.trimStart raw
  if kept.isEmpty then ⟨s.start, s.start⟩
  else ⟨s.start + (raw.length - kept.length), s.stop - (raw.length - (Text.trimEnd raw).length)⟩

end Span

/-- The positions of the delimiter at the top level; an occurrence that overlaps the one before
it, which ends at `free`, does not count. -/
def cutsFrom (t delimiter : Text) : Nat → List Mark → List Nat
  | _, [] => []
  | free, m :: ms =>
    if m.top && free ≤ m.pos && delimiter.isPrefixOf (t.drop m.pos) then
      m.pos :: cutsFrom t delimiter (m.pos + delimiter.length) ms
    else cutsFrom t delimiter free ms

/-- The spans that `cuts` leave of a text of length `size`, when each cut removes `width`
characters and the first span begins at `start`. -/
def spansBetween (size width : Nat) : Nat → List Nat → List Span
  | start, [] => [⟨start, size⟩]
  | start, cut :: cuts => ⟨start, cut⟩ :: spansBetween size width (cut + width) cuts

/-- The word spans that the marks make; `current` is the start of the word being read, and `size`
the length of the text. -/
def wordsFrom (size : Nat) : Option Nat → List Mark → List Span
  | none, [] => []
  | some start, [] => [⟨start, size⟩]
  | current, m :: ms =>
    if isBlank m.char then
      match m.top, current with
      | true, some start => ⟨start, m.pos⟩ :: wordsFrom size none ms
      | _, _ => wordsFrom size current ms
    else wordsFrom size (some (current.getD m.pos)) ms

namespace Scanner

/-- The pieces between the top-level occurrences of the delimiter, untrimmed; an empty delimiter
occurs nowhere. -/
def splitSpans (scanner : Scanner) (t delimiter : Text) : Except Fault (List Span) := do
  let marks ← scanner.marks t
  let cuts := if delimiter.isEmpty then [] else cutsFrom t delimiter 0 marks
  return spansBetween t.length delimiter.length 0 cuts

/-- The trimmed pieces between the top-level occurrences of the delimiter. -/
def split (scanner : Scanner) (t delimiter : Text) : Except Fault (List Text) := do
  return (← scanner.splitSpans t delimiter).map fun s => Text.trim (s.slice t)

/-- Where the words of a text stand: the stretches between top-level blanks. -/
def wordSpans (scanner : Scanner) (t : Text) : Except Fault (List Span) := do
  return wordsFrom t.length none (← scanner.marks t)

/-- The words of a text. -/
def words (scanner : Scanner) (t : Text) : Except Fault (List Text) := do
  return (← scanner.wordSpans t).map (·.slice t)

/-- The number of `?` outside literals. -/
def placeholders (scanner : Scanner) (t : Text) : Except Fault Nat := do
  return (← scanner.marks t).countP (·.char == '?')

end Scanner
end ObjectQuery
