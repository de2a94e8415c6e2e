import Excerpt.Spec.Fault

/-!
# Errors and reports

* `Error` — why an operation fails: a fault of the specification, or a failure outside it;
* `Error.message` — its wording, which is `Error.heading` followed by the detail, if there is one;
* `Report` — an error as it is shown: its kind with a stable code, the operation, the place and the
  wording;
* `Report.ofError` — the report of an error.
-/

namespace Excerpt

/-- Why an operation fails. -/
inductive Error where
  | spec (fault : Spec.Fault)
  /-- A text is no JSON, or not of the form that is asked for. -/
  | serialization (detail : String)
  | io (detail : String)
  /-- The configuration cannot be understood. -/
  | config (detail : String)
  deriving DecidableEq, Repr

namespace Error

/-- The place in the specification, if the error has one. -/
def position? : Error → Option Nat
  | .spec fault => some fault.position
  | _ => none

/-- The first part of the wording: all of it for a fault of a specification. -/
def heading : Error → String
  | .spec fault => fault.message
  | .serialization _ => "Serialization error"
  | .io _ => "I/O error"
  | .config _ => "Configuration error"

/-- The detail of a failure outside the specification. -/
def detail? : Error → Option String
  | .spec _ => none
  | .serialization d | .io d | .config d => some d

def message (e : Error) : String :=
  match e.detail? with
  | none => e.heading
  | some d => e.heading ++ ": " ++ d

end Error

inductive ErrorKind where
  | malformedSpecification
  /-- The extraction is given up before there is any output. -/
  | extractionFailed
  | io
  | serialization
  /-- The configuration cannot be understood. -/
  | config
  deriving DecidableEq, Repr

namespace ErrorKind

def all : List ErrorKind :=
  [.malformedSpecification, .extractionFailed, .io, .serialization, .config]

/-- The name of a kind in log records. -/
def name : ErrorKind → String
  | .malformedSpecification => "MalformedSpecification"
  | .extractionFailed => "ExtractionFailed"
  | .io => "Io"
  | .serialization => "Serialization"
  | .config => "Config"

/-- The stable code of a kind. -/
def code : ErrorKind → String
  | .malformedSpecification => "ERR_MALFORMED_SPECIFICATION"
  | .extractionFailed => "ERR_EXTRACTION_FAILED"
  | .io => "ERR_IO"
  | .serialization => "ERR_SERIALIZATION"
  | .config => "ERR_CONFIG"

/-- The kind of an error: exceeding the depth is a failure of the extraction, every other fault
makes the specification malformed. -/
def ofError : Error → ErrorKind
  | .spec fault => if fault.isMalformed then .malformedSpecification else .extractionFailed
  | .serialization _ => .serialization
  | .io _ => .io
  | .config _ => .config

theorem mem_all (k : ErrorKind) : k ∈ all := by cases k <;> decide

theorem code_injective {j k : ErrorKind} (h : j.code = k.code) : j = k := by
  revert h; cases j <;> cases k <;> decide

end ErrorKind

/-- An error as it is shown. -/
structure Report where
  kind : ErrorKind
  op : Option String := none
  position : Option Nat := none
  message : String := ""
  deriving DecidableEq, Repr

namespace Report

/-- A report of a kind and nothing else. -/
def ofKind (kind : ErrorKind) : Report := { kind }

def ofError (e : Error) : Report :=
  { kind := .ofError e, position := e.position?, message := e.message }

def withOp (r : Report) (op : String) : Report := { r with op := some op }

def withPosition (r : Report) (position : Nat) : Report := { r with position := some position }

def withMessage (r : Report) (message : String) : Report := { r with message }

def code (r : Report) : String := r.kind.code

/-- A report on one line: the code, and what else is known. -/
def render (r : Report) : String :=
  let op := match r.op with
    | some op => " in operation '" ++ op ++ "'"
    | none => ""
  let message := if r.message.isEmpty then "" else ": " ++ r.message
  let position := match r.position with
    | some p => " (position: " ++ toString p ++ ")"
    | none => ""
  "[" ++ r.code ++ "]" ++ op ++ message ++ position

end Report

end Excerpt
