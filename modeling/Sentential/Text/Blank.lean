/-
Blank characters.  A character is blank when it has the Unicode property
White_Space; the property has held of the same 25 characters since version 6.3.
`trim` drops the blanks at both ends of a text.
-/

namespace Sentential

/-- Closed ranges of code points of the blank characters, ascending and apart. -/
def blankRanges : List (Nat × Nat) :=
  [(0x0009, 0x000D), (0x0020, 0x0020), (0x0085, 0x0085), (0x00A0, 0x00A0),
    (0x1680, 0x1680), (0x2000, 0x200A), (0x2028, 0x2029), (0x202F, 0x202F),
    (0x205F, 0x205F), (0x3000, 0x3000)]

/-- Whether a character is blank. -/
def isBlank (c : Char) : Bool :=
  blankRanges.any fun range => range.1 ≤ c.toNat && c.toNat ≤ range.2

/-- A text without the blanks at its two ends. -/
def trim (text : List Char) : List Char :=
  ((text.dropWhile isBlank).reverse.dropWhile isBlank).reverse

theorem trim_singleton {c : Char} (hc : isBlank c = false) : trim [c] = [c] := by
  simp [trim, hc]

end Sentential
