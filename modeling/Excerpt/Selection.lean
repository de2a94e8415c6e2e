/-!
# Selections

* `Selection` — a key and the trajectory of keys that leads to it;
* `Selection.path` — trajectory and key as one list, `Selection.dotted` the same as text;
* `KeySpec` — the selections of a specification in order, `KeySpec.listing` their canonical text.
-/

namespace Excerpt

/-- A key whose value is taken, below the keys of its trajectory. -/
structure Selection where
  /-- The keys on the way, outermost first. -/
  trajectory : List String
  key : String
  deriving DecidableEq, Repr, Inhabited

namespace Selection

/-- All keys of a selection, outermost first. -/
def path (s : Selection) : List String := s.trajectory ++ [s.key]

/-- The keys of a selection joined by dots. -/
def dotted (s : Selection) : String := ".".intercalate s.path

theorem path_ne_nil (s : Selection) : s.path ≠ [] := by simp [path]

end Selection

/-- The selections of a specification, in the order in which they are applied. -/
structure KeySpec where
  selections : List Selection
  deriving DecidableEq, Repr, Inhabited

namespace KeySpec

def length (ks : KeySpec) : Nat := ks.selections.length

def isEmpty (ks : KeySpec) : Bool := ks.selections.isEmpty

/-- The canonical text of a specification: the dotted selections, joined by commas. -/
def listing (ks : KeySpec) : String := ",".intercalate (ks.selections.map Selection.dotted)

end KeySpec

end Excerpt
