import Excerpt.Cli.Arguments
import Excerpt.Cli.Files
import Excerpt.Extraction
import Excerpt.Json.Reader
import Excerpt.Json.Writer
import Excerpt.Log.Filter.Setting

/-!
# Commands

* `Surroundings` — what a command may read: files, an environment variable, the standard input; and
  how other software words why it refuses something;
* `Settings.load` — the configuration of a command;
* `readDocument` — the document that an excerpt is taken of;
* `Outcome` — what a command leaves behind: text on the standard output, at most one file written, a
  report of failure, and log records;
* `Command.run` — the outcome of a command;
* `Program.run` — the outcome of a list of arguments.
-/

namespace Excerpt.Cli

open Json

/-- How other software words a refusal: the file system, and the readers of texts. -/
structure Wording where
  /-- Why an access is refused under a name. -/
  access : Access → String → String := fun _ _ => ""
  /-- Why bytes are no text. -/
  encoding : ByteArray → String := fun _ => ""
  /-- Why bytes are no document. -/
  json : ByteArray → String := fun _ => ""
  /-- Why a text is no configuration. -/
  toml : String → String := fun _ => ""

/-- What a command may read. -/
structure Surroundings where
  files : Files := {}
  /-- The name of a configuration in the environment. -/
  configVariable : Option String := none
  input : ByteArray := .empty
  wording : Wording := {}

/-- What a command leaves behind. -/
structure Outcome where
  output : String := ""
  /-- What is written to a file: its name and its content. -/
  written : Option (String × String) := none
  failure : Option Report := none
  records : List Log.Record := []

namespace Outcome

/-- The outcome of a failure: nothing is written. -/
def failed (op : Log.Operation) (e : Error) (records : List Log.Record) : Outcome :=
  { failure := some ((Report.ofError e).withOp op.name), records }

def status (o : Outcome) : Nat := if o.failure.isSome then 1 else 0

def filesAfter (o : Outcome) (before : Files) : Files :=
  match o.written with
  | some (name, content) => (before.write? name content.toUTF8).getD before
  | none => before

end Outcome

/-! ### Configuration and input -/

def configOfBytes (w : Surroundings) (bytes : ByteArray) : Except Error Config :=
  match String.fromUTF8? bytes with
  | none => .error (.io (w.wording.encoding bytes))
  | some text =>
    match Config.ofText? text with
    | none => .error (.config (w.wording.toml text))
    | some c => .ok c

/-- The configuration in a file. All that bars reading it is a failure of the file system. -/
def configOfFile (w : Surroundings) (name : String) : Except Error Config :=
  match w.files.read name with
  | .unopened => .error (.io (w.wording.access .opening name))
  | .unread => .error (.io (w.wording.access .reading name))
  | .content bytes => configOfBytes w bytes

/-- The configuration of a command: that of its settings, which must exist, or that of the
environment, if it exists, or the usual one. -/
def Settings.load (s : Settings) (w : Surroundings) : Except Error Config :=
  match s.config, w.configVariable with
  | some name, _ => configOfFile w name
  | none, some name => if w.files.isPresent name then configOfFile w name else .ok {}
  | none, none => .ok {}

def documentOfBytes (w : Surroundings) (bytes : ByteArray) : Except Error Document :=
  match (String.fromUTF8? bytes).bind Document.ofText? with
  | some d => .ok d
  | none => .error (.serialization (w.wording.json bytes))

/-- The document of a file, or of the standard input. What cannot be read is reported as what is no
document is. -/
def readDocument (w : Surroundings) : Option String → Except Error Document
  | none => documentOfBytes w w.input
  | some name =>
    match w.files.read name with
    | .content bytes => documentOfBytes w bytes
    | .unread => .error (.serialization (w.wording.access .reading name))
    | .unopened => .error (.io (w.wording.access .opening name))

/-! ### Running -/

def parseTarget : String := "dataex::commands::parse"

def extractTarget : String := "dataex::commands::extract"

def writtenRecord (name : String) : Log.Record where
  level := .info
  target := extractTarget
  fields :=
    [(Log.Field.message, some (.text "wrote extracted document")),
      (Log.Field.path, some (.text name))]

/-- Deliver a text to a file or to the standard output. -/
def deliver (w : Surroundings) (text : String) (output : Option String)
    (records : List Log.Record) : Outcome :=
  match output with
  | none => { output := text, records }
  | some name =>
    match w.files.write? name text.toUTF8 with
    | some _ => { written := some (name, text), records := records ++ [writtenRecord name] }
    | none => .failed .extract (.io (w.wording.access .writing name)) records

/-- Take an excerpt: the configuration, the document, the specification and the output are dealt
with in this order, and the first failure ends the command. -/
def runExtract (w : Surroundings) (spec : String) (settings : Settings)
    (input output : Option String) (pretty : Bool) : Outcome :=
  match settings.load w with
  | .error e => .failed .extract e []
  | .ok config =>
    match readDocument w input with
    | .error e => .failed .extract e []
    | .ok document =>
      let o := settings.overrides.resolve config
      let records := Extraction.records o document spec
      match extract o document spec with
      | .error fault => .failed .extract (.spec fault) records
      | .ok excerpt =>
        let style := if pretty || config.pretty then .pretty else .compact
        deliver w (excerpt.render style ++ "\n") output records

/-- List the selections of a specification, one a line. -/
def runParse (w : Surroundings) (spec : String) (settings : Settings) : Outcome :=
  match settings.load w with
  | .error e => .failed .parse e []
  | .ok config =>
    let op := Log.Operation.parse.name
    let started := Log.Record.started parseTarget op
      [(Log.Field.specLength, some (.count spec.utf8ByteSize))]
    match KeySpec.parse (settings.overrides.resolve config) spec with
    | .error fault =>
      let report := Report.ofError (.spec fault)
      .failed .parse (.spec fault) [started, .failed parseTarget op report none []]
    | .ok ks =>
      { output := String.join (ks.selections.map fun s => s.dotted ++ "\n")
        records :=
          [started, .ended parseTarget op none [(Log.Field.selections, some (.count ks.length))]] }

def Command.run (w : Surroundings) : Command → Outcome
  | .extract spec settings input output pretty => runExtract w spec settings input output pretty
  | .parse spec settings => runParse w spec settings

namespace Program

/-- The log records that are shown in JSON: none unless they are asked for, and none if readable
ones are. -/
def shown (i : Invocation) (filter : Log.Filter) (records : List Log.Record) : List Log.Record :=
  if i.logJson && !i.verbose then records.filter filter.admits else []

/-- The filter of an invocation, which is read only if log records are asked for. -/
def filterOf (i : Invocation) (setting : Option String) : Except Stop Log.Filter :=
  if i.logJson || i.verbose then
    match Log.Filter.ofSetting setting with
    | some filter => .ok filter
    | none => .error .tornSetting
  else .ok []

/-- The outcome of a list of arguments, with the log records that a filter lets through. -/
def run (w : Surroundings) (filterSetting : Option String) (args : List String) :
    Except Stop Outcome := do
  let i ← Invocation.ofArgs args
  let filter ← filterOf i filterSetting
  let outcome := i.command.run w
  return { outcome with records := shown i filter outcome.records }

end Program

end Excerpt.Cli
