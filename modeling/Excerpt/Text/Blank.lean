/-!
# Blank characters

* `isBlank` — membership in the Unicode property `White_Space`, as a table of ranges;
* `compact` — a text without its blanks;
* `mem_compact`, `compact_append` — what `compact` keeps, and that it keeps it piece by piece.
-/

namespace Excerpt.Text

/-- The ranges of code points with the property `White_Space`, first and last point of each. -/
def blankRanges : List (Nat × Nat) :=
  [(0x0009, 0x000D), (0x0020, 0x0020), (0x0085, 0x0085), (0x00A0, 0x00A0), (0x1680, 0x1680),
   (0x2000, 0x200A), (0x2028, 0x2029), (0x202F, 0x202F), (0x205F, 0x205F), (0x3000, 0x3000)]

/-- Whether a character lies in one of `blankRanges`. -/
def isBlank (c : Char) : Bool :=
  blankRanges.any fun r => r.1 ≤ c.toNat && c.toNat ≤ r.2

/-- The characters of a text that are not blank, in order. -/
def compact (text : String) : List Char :=
  text.toList.filter fun c => !isBlank c

theorem mem_compact {text : String} {c : Char} :
    c ∈ compact text ↔ c ∈ text.toList ∧ isBlank c = false := by
  simp [compact]

theorem compact_append (s t : String) : compact (s ++ t) = compact s ++ compact t := by
  simp [compact]

/-- Every character that core calls white space is blank. -/
theorem isBlank_of_isWhitespace {c : Char} (h : c.isWhitespace = true) : isBlank c = true := by
  have hc : c = ' ' ∨ c = '\t' ∨ c = '\r' ∨ c = '\n' := by
    simpa [Char.isWhitespace, or_assoc] using h
  rcases hc with rfl | rfl | rfl | rfl <;> decide

end Excerpt.Text
