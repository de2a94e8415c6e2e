/-!
# Faults of a specification

* `Fault` — why a specification is refused, with the place of the fault;
* `Fault.position` — that place, counted in characters of the specification without its blanks;
* `Fault.isMalformed` — the faults that only a strict reader finds.
-/

namespace Excerpt.Spec

/-- Why a specification is refused. -/
inductive Fault where
  /-- The `[` at `position` is never closed. -/
  | unclosedGroup (position : Nat)
  /-- The `]` at `position` stands outside every group. -/
  | unexpectedClosingBracket (position : Nat)
  /-- No key stands before the character `found`. -/
  | emptyKey (position : Nat) (found : Char)
  /-- The character `found` follows a closed group, where only `,` and `]` may stand. -/
  | unexpectedCharacter (position : Nat) (found : Char)
  /-- A path of `depth` steps is longer than `limit` allows. -/
  | depthExceeded (depth limit position : Nat)
  deriving DecidableEq, Repr

namespace Fault

def position : Fault → Nat
  | .unclosedGroup p => p
  | .unexpectedClosingBracket p => p
  | .emptyKey p _ => p
  | .unexpectedCharacter p _ => p
  | .depthExceeded _ _ p => p

/-- Whether the fault is one of structure, and not of depth. -/
def isMalformed : Fault → Bool
  | .depthExceeded .. => false
  | _ => true

def message : Fault → String
  | .unclosedGroup p => s!"Unclosed group opened at position {p}"
  | .unexpectedClosingBracket p => s!"Unexpected ']' at position {p}"
  | .emptyKey p c => s!"Empty key before '{c}' at position {p}"
  | .unexpectedCharacter p c => s!"Unexpected '{c}' after group at position {p}"
  | .depthExceeded d l p => s!"Path depth {d} exceeds limit {l} at position {p}"

end Fault

end Excerpt.Spec
