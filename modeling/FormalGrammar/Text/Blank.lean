/-!
# Blank characters

The white space that is trimmed from both ends of a text. Zero-width characters
such as U+200B and U+FEFF are not blank, and neither is U+180E.
-/

namespace FormalGrammar.Text

/-- Inclusive code-point ranges of the blank characters, ascending. -/
def blankRanges : List (Nat × Nat) :=
  [(0x9, 0xD), (0x1C, 0x20), (0x85, 0x85), (0xA0, 0xA0), (0x1680, 0x1680), (0x2000, 0x200A),
    (0x2028, 0x2029), (0x202F, 0x202F), (0x205F, 0x205F), (0x3000, 0x3000)]

/-- Whether a character is white space. -/
def isBlank (c : Char) : Bool :=
  blankRanges.any fun (low, high) => low ≤ c.toNat && c.toNat ≤ high

/-- A text without the blanks at its two ends. -/
def trim (cs : List Char) : List Char :=
  ((cs.dropWhile isBlank).toArray.popWhile isBlank).toList

end FormalGrammar.Text
