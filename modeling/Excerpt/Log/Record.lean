import Excerpt.Error
import Excerpt.Json.Value

/-!
# Log records

* `Level` — how grave a record is;
* `Field` — the names of the fields, the same in every record;
* `Record` — a record: its level, the part of the program that it comes from, and the fields that
  it declares, with their values as far as they are known;
* `Record.started`, `Record.ended`, `Record.failed` — the records of the two ends of an operation.
-/

namespace Excerpt.Log

/-- How grave a record is. -/
inductive Level where
  | error
  | warn
  | info
  | debug
  | trace
  deriving DecidableEq, Repr

namespace Level

def name : Level → String
  | .error => "ERROR"
  | .warn => "WARN"
  | .info => "INFO"
  | .debug => "DEBUG"
  | .trace => "TRACE"

/-- The place of a level, the gravest first. -/
def rank : Level → Nat
  | .error => 1
  | .warn => 2
  | .info => 3
  | .debug => 4
  | .trace => 5

def all : List Level := [.error, .warn, .info, .debug, .trace]

def ofRank? (n : Nat) : Option Level := all.find? fun l => l.rank = n

end Level

/-! ### Names of fields, events and operations -/

namespace Field

def component : String := "component"

def op : String := "op"

def event : String := "event"

def duration : String := "duration_ms"

/-- The length of the specification in bytes, blanks included. -/
def specLength : String := "spec_len"

def selections : String := "selections"

def mode : String := "mode"

def errorKind : String := "err.kind"

def errorCode : String := "err.code"

def position : String := "position"

def message : String := "message"

def step : String := "step"

def index : String := "index"

def key : String := "key"

def path : String := "path"

end Field

inductive Phase where
  | start
  | finish
  | failure
  deriving DecidableEq, Repr

def Phase.name : Phase → String
  | .start => "start"
  | .finish => "end"
  | .failure => "end_error"

inductive Operation where
  | extract
  | parse
  deriving DecidableEq, Repr

def Operation.name : Operation → String
  | .extract => "extract"
  | .parse => "parse"

/-! ### Records -/

inductive Datum where
  | text (s : String)
  | count (n : Nat)
  deriving DecidableEq, Repr

namespace Datum

def render : Datum → String
  | .text s => s
  | .count n => toString n

def toJson : Datum → Json.Value
  | .text s => .str s
  | .count n => .num (.ofNat n)

end Datum

/-- The fields that a record declares, with their values; a value may be unknown. -/
abbrev Fields := List (String × Option Datum)

structure Record where
  level : Level
  /-- The part of the program that it comes from. -/
  target : String
  /-- The fields that it declares, in order. -/
  fields : Fields
  deriving DecidableEq, Repr

namespace Record

def declares (r : Record) (name : String) : Bool := r.fields.any fun f => f.1 = name

/-- The fields whose values are known, in order. -/
def known (r : Record) : List (String × Datum) :=
  r.fields.filterMap fun f => f.2.map fun d => (f.1, d)

/-- The text of a field, if its value is known. -/
def field? (r : Record) (name : String) : Option String :=
  (Entries.get? name r.known).map Datum.render

/-- A record of one end of an operation. -/
def boundary (level : Level) (target op : String) (phase : Phase) (fields : Fields) : Record where
  level
  target
  fields :=
    [(Field.component, some (.text target)), (Field.op, some (.text op)),
      (Field.event, some (.text phase.name))] ++ fields

/-- An operation begins. -/
def started (target op : String) (fields : Fields) : Record :=
  boundary .info target op .start fields

/-- An operation has succeeded, in a time that may be unknown. -/
def ended (target op : String) (duration : Option Nat) (fields : Fields) : Record :=
  boundary .info target op .finish <| (Field.duration, duration.map .count) :: fields

/-- An operation has failed. The place in the specification is declared even if there is none. -/
def failed (target op : String) (report : Report) (duration : Option Nat) (fields : Fields) :
    Record :=
  boundary .error target op .failure <|
    [(Field.duration, duration.map .count), (Field.errorKind, some (.text report.kind.name)),
      (Field.errorCode, some (.text report.code)),
      (Field.position, report.position.map .count)] ++ fields

/-- A record in JSON, with the fields whose values are known. -/
def toJson (r : Record) : Json.Value :=
  .obj [("level", .str r.level.name),
    ("fields", .obj (r.known.map fun f => (f.1, f.2.toJson))),
    ("target", .str r.target)]

end Record

end Excerpt.Log
