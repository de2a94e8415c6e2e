/-!
# Options of a specification reader

* `Mode` — how malformed specifications are treated;
* `Options` — the mode together with the wished-for limit on the depth of paths;
* `Options.depthLimit` — the limit that is enforced, never above `depthCeiling`.
-/

namespace Excerpt

/-- The limit on the depth of paths where none is given. -/
def defaultMaxDepth : Nat := 64

/-- The largest limit on the depth of paths that is enforced. -/
def depthCeiling : Nat := 128

/-- How a malformed specification is treated. -/
inductive Mode where
  /-- Best effort: open groups close at the end of the text, a stray `]` ends it, empty keys are
  kept as steps. -/
  | lenient
  /-- A malformed specification is refused, with the position of the fault. -/
  | strict
  deriving DecidableEq, Repr, Inhabited

namespace Mode

/-- The name of a mode in options, configuration and log records. -/
def name : Mode → String
  | .lenient => "lenient"
  | .strict => "strict"

/-- The mode of a name, in lower case exactly. -/
def ofName? (name : String) : Option Mode :=
  if name = "lenient" then some .lenient
  else if name = "strict" then some .strict
  else none

theorem ofName?_name (m : Mode) : ofName? m.name = some m := by
  cases m <;> decide

end Mode

structure Options where
  /-- How malformed specifications are treated. -/
  mode : Mode := .lenient
  /-- The wished-for limit on the length of a trajectory. -/
  maxDepth : Nat := defaultMaxDepth
  deriving DecidableEq, Repr, Inhabited

namespace Options

/-- Lenient reading with the usual depth limit. -/
def default : Options := {}

/-- Strict reading with the usual depth limit. -/
def strict : Options := { mode := .strict }

def withMode (o : Options) (mode : Mode) : Options := { o with mode }

def withMaxDepth (o : Options) (maxDepth : Nat) : Options := { o with maxDepth }

def depthLimit (o : Options) : Nat := min o.maxDepth depthCeiling

/-- Whether malformed specifications are refused. -/
def isStrict (o : Options) : Bool := o.mode = .strict

theorem depthLimit_le_ceiling (o : Options) : o.depthLimit ≤ depthCeiling :=
  Nat.min_le_right _ _

end Options

end Excerpt
