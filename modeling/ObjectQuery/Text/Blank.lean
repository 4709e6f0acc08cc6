/-! # Blank characters

Query text is a list of characters. `isBlank` is the `White_Space` property of Unicode: the
characters that separate words and that are cut from both ends of a fragment by `Text.trim`. -/

namespace ObjectQuery

/-- A piece of query text, as the characters it consists of. -/
abbrev Text := List Char

/-- The ranges of code points, first to last, with the Unicode property `White_Space`. -/
def blankRanges : List (Nat × Nat) :=
  [(0x09, 0x0D), (0x20, 0x20), (0x85, 0x85), (0xA0, 0xA0), (0x1680, 0x1680), (0x2000, 0x200A),
   (0x2028, 0x2029), (0x202F, 0x202F), (0x205F, 0x205F), (0x3000, 0x3000)]

/-- A character that separates words. -/
def isBlank (c : Char) : Bool :=
  blankRanges.any fun r => r.1 ≤ c.toNat && c.toNat ≤ r.2

namespace Text

/-- The text without the blanks it starts with. -/
def trimStart (t : Text) : Text := t.dropWhile isBlank

/-- The text without the blanks it ends with. -/
def trimEnd (t : Text) : Text := (t.reverse.dropWhile isBlank).reverse

/-- The text without the blanks around it. -/
def trim (t : Text) : Text := trimEnd (trimStart t)

/-- The number of bytes of the UTF-8 form of the first `n` characters. -/
def byteOffset (t : Text) (n : Nat) : Nat :=
  (t.take n).foldr (fun c bytes => c.utf8Size + bytes) 0

end Text

/-- Every blank of the ASCII class is a blank. -/
theorem isBlank_of_isWhitespace {c : Char} (h : c.isWhitespace = true) : isBlank c = true := by
  simp only [Char.isWhitespace, Bool.or_eq_true, decide_eq_true_eq] at h
  rcases h with ((rfl | rfl) | rfl) | rfl <;> rfl

end ObjectQuery
