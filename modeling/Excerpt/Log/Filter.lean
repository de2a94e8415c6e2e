import Excerpt.Log.Record
import Excerpt.Text.Bytes

/-!
# Filters of records

* `Directive` — the least grave level that passes, for the records whose target begins with a text
  and that declare a field;
* `Directive.precedes` — which of two directives is the narrower one;
* `Filter.admits` — whether a record passes: the narrowest directive that concerns it decides, of
  equally narrow ones the last, and where none concerns it, it does not pass;
* `Filter.usual` — the filter where none is given.
-/

namespace Excerpt.Log

/-- The least grave level that passes; nothing passes where there is none. -/
abbrev Threshold := Option Level

def Threshold.admits (t : Threshold) (level : Level) : Bool :=
  match t with
  | some least => level.rank ≤ least.rank
  | none => false

structure Directive where
  /-- What the targets concerned begin with; all are concerned where there is nothing. -/
  target : Option String := none
  /-- The field that the records concerned declare; all are concerned where there is nothing. -/
  field : Option String := none
  threshold : Threshold
  deriving DecidableEq, Repr

abbrev Filter := List Directive

namespace Directive

def concerns (d : Directive) (r : Record) : Bool :=
  (d.target.all fun start => start.toList.isPrefixOf r.target.toList) && d.field.all r.declares

/-- The length of the target in bytes; no target is shorter than the empty one. -/
def targetLength (d : Directive) : Option Nat := d.target.map String.utf8ByteSize

/-- Whether a directive is at most as narrow as another one: its target is shorter, or as long and
its field is none or comes earlier in the order of texts. -/
def precedes (d e : Directive) : Bool :=
  if d.targetLength = e.targetLength then
    match d.field, e.field with
    | none, _ => true
    | some _, none => false
    | some a, some b => a ≤ b
  else
    match d.targetLength, e.targetLength with
    | none, _ => true
    | some _, none => false
    | some m, some n => m ≤ n

end Directive

namespace Filter

/-- The directive that decides about a record. -/
def decisive? (filter : Filter) (r : Record) : Option Directive :=
  (filter.filter fun d => d.concerns r).foldl (fun best d =>
    match best with
    | some b => if b.precedes d then some d else some b
    | none => some d) none

def admits (filter : Filter) (r : Record) : Bool :=
  match decisive? filter r with
  | some d => d.threshold.admits r.level
  | none => false

/-- The filter where none is given. -/
def usual : Filter :=
  [{ target := some "dataex_core", threshold := some .info },
    { target := some "dataex_cli", threshold := some .info }]

end Filter

end Excerpt.Log
