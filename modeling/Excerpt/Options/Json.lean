import Excerpt.Error
import Excerpt.Json.Reader
import Excerpt.Json.Writer
import Excerpt.Options

/-!
# Options as JSON

* `Options.toJson` — options as an object, the mode first;
* `Options.ofJson?` — the options of a value: an object of known fields, each at most once, or an
  array of the fields in order; missing fields have their usual values;
* `Options.ofText` — the options of a text.
-/

namespace Excerpt

open Json

/-- The mode of a value: its name, or an object of one entry that has the name as key and nothing
as value. -/
def Mode.ofJson? : Value → Option Mode
  | .str name => ofName? name
  | .obj [(name, .null)] => ofName? name
  | _ => none

namespace Options

def modeField : String := "mode"

def depthField : String := "max_depth"

/-- Options as an object, the mode first. -/
def toJson (o : Options) : Value :=
  .obj [(modeField, .str o.mode.name), (depthField, .num (.ofNat o.maxDepth))]

/-- The depth limit of a value: an integer that is not negative. -/
def depthOfJson? : Value → Option Nat
  | .num (.int n _) => if 0 ≤ n then some n.toNat else none
  | _ => none

/-- Fields that may be missing. -/
structure Partial where
  mode : Option Mode := none
  maxDepth : Option Nat := none
  deriving DecidableEq, Repr

namespace Partial

def complete (p : Partial) : Options :=
  { mode := p.mode.getD .lenient, maxDepth := p.maxDepth.getD defaultMaxDepth }

/-- Set the mode, unless it has been set. -/
def setMode? (p : Partial) (mode : Mode) : Option Partial :=
  if p.mode.isSome then none else some { p with mode := some mode }

/-- Set the depth limit, unless it has been set. -/
def setDepth? (p : Partial) (depth : Nat) : Option Partial :=
  if p.maxDepth.isSome then none else some { p with maxDepth := some depth }

def entry? (p : Partial) (e : String × Value) : Option Partial :=
  if e.1 = modeField then (Mode.ofJson? e.2).bind p.setMode?
  else if e.1 = depthField then (depthOfJson? e.2).bind p.setDepth?
  else none

end Partial

def ofJson? : Value → Option Options
  | .obj entries => (entries.foldlM Partial.entry? {}).map Partial.complete
  | .arr [] => some default
  | .arr [m] => (Mode.ofJson? m).map default.withMode
  | .arr [m, d] =>
    (Mode.ofJson? m).bind fun mode => (depthOfJson? d).map fun maxDepth => { mode, maxDepth }
  | _ => none

def ofJson (v : Value) : Except Error Options :=
  match ofJson? v with
  | some o => .ok o
  | none => .error (.serialization "invalid extraction options")

def ofText (text : String) : Except Error Options :=
  match Value.ofText? text with
  | some v => ofJson v
  | none => .error (.serialization "invalid JSON")

theorem mode_ofJson?_name (m : Mode) : Mode.ofJson? (.str m.name) = some m :=
  Mode.ofName?_name m

theorem depthOfJson?_ofNat {n : Nat} (h : n < Text.Numeral.wordBound) :
    depthOfJson? (.num (.ofNat n)) = some n := by
  have hmin : min n (Text.Numeral.wordBound - 1) = n := by omega
  simp [Number.ofNat, depthOfJson?, hmin]

/-- What is written is read back, for limits of 64 bits. -/
theorem ofJson?_toJson (o : Options) (h : o.maxDepth < Text.Numeral.wordBound) :
    ofJson? o.toJson = some o := by
  have hf : depthField ≠ modeField := by decide
  simp [ofJson?, toJson, Partial.entry?, mode_ofJson?_name, Partial.setMode?, Partial.setDepth?,
    depthOfJson?_ofNat h, Partial.complete, hf]

end Options

end Excerpt
