/-!
# Blanks

The characters that Unicode calls white space, and trimming by them.

Names that people type, such as the name of a scheduling discipline, are
trimmed before they are compared. The set is the standard's property
`White_Space`, twenty-five characters, which is larger than the four that
`Char.isWhitespace` knows.

## Main definitions

* `blankRanges`: The property as a table of ranges.
* `isBlank`: Membership in the table.
* `trim`: A text without blanks at either end.

## Theorems

* `isBlank_of_isWhitespace`: Every ASCII white space is a blank.
-/

namespace CyclePlan

namespace Text

/-- The code points of the property `White_Space`, as closed ranges in
    ascending order. -/
def blankRanges : List (Nat × Nat) :=
  [(0x9, 0xD), (0x20, 0x20), (0x85, 0x85), (0xA0, 0xA0), (0x1680, 0x1680), (0x2000, 0x200A),
   (0x2028, 0x2029), (0x202F, 0x202F), (0x205F, 0x205F), (0x3000, 0x3000)]

/-- Whether a character is white space. -/
def isBlank (c : Char) : Bool :=
  blankRanges.any fun r => r.1 ≤ c.toNat && c.toNat ≤ r.2

/-- A text without the blanks at its two ends. -/
def trim (s : String) : String :=
  String.ofList (((s.toList.dropWhile isBlank).reverse.dropWhile isBlank).reverse)

/-- Every ASCII white space is a blank. -/
theorem isBlank_of_isWhitespace {c : Char} (h : c.isWhitespace = true) : isBlank c = true := by
  simp only [Char.isWhitespace, Bool.or_eq_true, decide_eq_true_eq] at h
  rcases h with ((rfl | rfl) | rfl) | rfl <;> decide

/-- The table names twenty-five characters. -/
example : (blankRanges.map fun r => r.2 + 1 - r.1).sum = 25 := by decide

end Text

end CyclePlan
