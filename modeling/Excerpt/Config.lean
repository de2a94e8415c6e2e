import Excerpt.Options
import Excerpt.Toml.Document

/-!
# Configuration

* `Config` — the options of extraction and the style of output that a configuration sets;
* `Config.ofTable?` — the configuration of a table, all of whose keys are known;
* `Config.ofText?` — the configuration of a text.

A group of settings is a table, or an array of the settings in order, of which further elements are
ignored.
-/

namespace Excerpt

structure Config where
  options : Options := {}
  pretty : Bool := false
  deriving DecidableEq, Repr, Inhabited

namespace Config

open Toml

/-- The environment variable that names a configuration. -/
def environmentVariable : String := "DATAEX_CONFIG"

/-- The mode of a value: its name, or a table of one key that has the name and holds nothing. -/
def mode? : Value → Option Mode
  | .str name => Mode.ofName? name
  | .table [(name, .table [])] => Mode.ofName? name
  | .table [(name, .arr [])] => Mode.ofName? name
  | _ => none

/-- The depth limit of a value: an integer that is not negative. -/
def depth? : Value → Option Nat
  | .int n => if 0 ≤ n then some n.toNat else none
  | _ => none

def flag? : Value → Option Bool
  | .bool b => some b
  | _ => none

def setOption? (o : Options) (e : String × Value) : Option Options :=
  if e.1 = "mode" then (mode? e.2).map o.withMode
  else if e.1 = "max_depth" then (depth? e.2).map o.withMaxDepth
  else none

def options? : Value → Option Options
  | .table entries => entries.foldlM setOption? {}
  | .arr [] => some {}
  | .arr [m] => (mode? m).map Options.default.withMode
  | .arr (m :: d :: _) =>
    (mode? m).bind fun mode => (depth? d).map fun maxDepth => { mode, maxDepth }
  | _ => none

def setPretty? (_ : Bool) (e : String × Value) : Option Bool :=
  if e.1 = "pretty" then flag? e.2 else none

/-- Whether the output is indented, by a value. -/
def pretty? : Value → Option Bool
  | .table entries => entries.foldlM setPretty? false
  | .arr [] => some false
  | .arr (p :: _) => flag? p
  | _ => none

def setGroup? (c : Config) (e : String × Value) : Option Config :=
  if e.1 = "extract" then (options? e.2).map fun options => { c with options }
  else if e.1 = "output" then (pretty? e.2).map fun pretty => { c with pretty }
  else none

def ofTable? (entries : List (String × Value)) : Option Config := entries.foldlM setGroup? {}

def ofText? (text : String) : Option Config := (document? text).bind ofTable?

end Config

/-- What the command line sets beside a configuration. -/
structure Overrides where
  strict : Bool := false
  maxDepth : Option Nat := none
  deriving DecidableEq, Repr, Inhabited

namespace Overrides

/-- The options of a configuration with the overrides in place. -/
def resolve (f : Overrides) (c : Config) : Options :=
  let o := if f.strict then c.options.withMode .strict else c.options
  match f.maxDepth with
  | some d => o.withMaxDepth d
  | none => o

theorem resolve_mode (f : Overrides) (c : Config) :
    (f.resolve c).mode = if f.strict then .strict else c.options.mode := by
  unfold resolve
  cases f.strict <;> cases f.maxDepth <;> rfl

theorem resolve_maxDepth (f : Overrides) (c : Config) :
    (f.resolve c).maxDepth = f.maxDepth.getD c.options.maxDepth := by
  unfold resolve
  cases f.strict <;> cases f.maxDepth <;> rfl

end Overrides

end Excerpt
