import Excerpt.Text.Blank

/-!
# Keys of a specification

* `isDelimiter` — the four characters that structure a specification;
* `IsKey` — the texts that may be a key: not empty, without delimiters and blanks;
* `Key` — such a text.
-/

namespace Excerpt.Spec

/-- Whether a character structures a specification. -/
def isDelimiter (c : Char) : Bool := c = ',' || c = '.' || c = '[' || c = ']'

/-- Whether a character may stand in a key. -/
def isKeyChar (c : Char) : Bool := !isDelimiter c && !Text.isBlank c

/-- The texts that may be a key. -/
def IsKey (text : String) : Prop := text.toList ≠ [] ∧ ∀ c ∈ text.toList, isKeyChar c = true

instance (text : String) : Decidable (IsKey text) :=
  decidable_of_iff (text.toList ≠ [] ∧ text.toList.all isKeyChar = true)
    (by rw [IsKey, List.all_eq_true])

structure Key where
  text : String
  isKey : IsKey text
  deriving DecidableEq

namespace Key

def chars (k : Key) : List Char := k.text.toList

theorem isKeyChar_of_mem {k : Key} {c : Char} (h : c ∈ k.chars) : isKeyChar c = true :=
  k.isKey.2 c h

theorem not_isDelimiter_of_mem {k : Key} {c : Char} (h : c ∈ k.chars) : isDelimiter c = false := by
  simpa using (Bool.and_eq_true_iff.1 (isKeyChar_of_mem h)).1

end Key

end Excerpt.Spec
