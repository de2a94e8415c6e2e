import Excerpt.Cli.Command

/-!
# The program

The arguments are read, the files that they name are looked at, and the outcome that
`Excerpt.Cli.Program.run` gives is put into effect: the file, the standard output, the log records
and the report of failure, the latter two on the standard error. A name stands for the place that it
leads to behind all links.
-/

namespace Excerpt.Cli

def usage : String :=
  "dataex - extract a subset of a JSON document by key paths\n\n" ++
  "Usage: dataex [-v | --log-json] extract SPEC [-i FILE] [-o FILE] [--pretty] [SETTINGS]\n" ++
  "       dataex [-v | --log-json] parse SPEC [SETTINGS]\n\n" ++
  "Settings: [-c FILE] [--strict] [--max-depth N]\n"

/-! ### What the files are -/

/-- How the readers of texts word a refusal. -/
def wording : Wording where
  encoding _ := "stream did not contain valid UTF-8"
  json _ := "invalid JSON"
  toml _ := "invalid configuration"

namespace Path

/-- The place of the text of a path without links. -/
def ofText (text : String) : Path := (text.splitOn "/").filter (!·.isEmpty)

/-- A name, taken apart into that of a directory and that of a place in it. -/
def splitName (name : String) : String × String :=
  match (name.splitOn "/").reverse with
  | [] | [_] => (".", name)
  | last :: before => ("/".intercalate before.reverse ++ "/.", last)

/-- The place that a name leads to, whether anything stands there or not. -/
def ofName (name : String) : IO (Option Path) := do
  try
    return some (ofText (← IO.FS.realPath name).toString)
  catch _ =>
    let (directory, last) := splitName name
    if last.isEmpty || last = "." || last = ".." then return none
    try
      return some (ofText (← IO.FS.realPath directory).toString ++ [last])
    catch _ => return none

end Path

/-- Whether there is something under a name. -/
def stands (name : String) : IO Bool := do
  try
    let _ ← IO.FS.realPath name
    return true
  catch _ => return false

namespace Surroundings

/-- A name leads to a place, and something stands there. -/
def place (w : Surroundings) (name : String) (path : Path) (entry : Entry) : Surroundings :=
  { w with files := { w.files with
      locate other := if other = name then some path else w.files.locate other
      entry other := if other = path then entry else w.files.entry other } }

/-- An access is refused under a name. -/
def refuse (w : Surroundings) (access : Access) (name why : String) : Surroundings :=
  { w with
    files := { w.files with
      refuses other path :=
        (other = access && w.files.locate name = some path) || w.files.refuses other path }
    wording := { w.wording with
      access other under :=
        if other = access && under = name then why else w.wording.access other under } }

/-- Find out where a name leads, and whether a directory stands there, without opening it. -/
def observe (w : Surroundings) (name : String) : IO Surroundings := do
  match ← Path.ofName name with
  | none => return w
  | some path =>
    let entry ← do
      if ← stands (name ++ "/.") then pure .directory
      else if ← stands name then pure (.file .empty)
      else pure Entry.vacant
    return w.place name path entry

/-- Read what has been opened under a name. -/
def readFrom (w : Surroundings) (name : String) (handle : IO.FS.Handle) : IO Surroundings := do
  try
    let bytes ← handle.readBinToEnd
    return w.place name ((w.files.locate name).getD [name]) (.file bytes)
  catch e => return w.refuse .reading name (toString e)

/-- Open what stands under a name, and read it. -/
def fetch (w : Surroundings) (name : String) : IO Surroundings := do
  let w ← w.observe name
  try
    w.readFrom name (← IO.FS.Handle.mk name .read)
  catch e => return w.refuse .opening name (toString e)

/-- Find out where an output is to go. Where nothing can be written, opening tells why and changes
nothing. -/
def prepare (w : Surroundings) (name : String) : IO Surroundings := do
  let w ← w.observe name
  if (w.files.write? name .empty).isSome then return w
  try
    let _ ← IO.FS.Handle.mk name .readWrite
    return w
  catch e => return w.refuse .writing name (toString e)

end Surroundings

/-! ### Running -/

/-- Read what a command asks for: the configuration, and the document if there is a configuration.
The place of the output is looked at first, since it may be that of the document. -/
def Command.fetch (c : Command) (w : Surroundings) : IO Surroundings := do
  match c with
  | .parse _ settings => (settings.config.or w.configVariable).toList.foldlM Surroundings.fetch w
  | .extract _ settings input output _ =>
    let w ← output.toList.foldlM Surroundings.prepare w
    let w ← (settings.config.or w.configVariable).toList.foldlM Surroundings.fetch w
    match settings.load w, input with
    | .error _, _ => return w
    | .ok _, some name => w.fetch name
    | .ok _, none => return { w with input := ← (← IO.getStdin).readBinToEnd }

/-- The outcome of a command, with its file written. If that fails after all, it is the outcome with
writing refused. -/
def Command.perform (c : Command) (w : Surroundings) : IO Outcome := do
  let outcome := c.run w
  match outcome.written with
  | none => return outcome
  | some (name, text) =>
    try
      let handle ← IO.FS.Handle.mk name .write
      handle.putStr text
      handle.flush
      return outcome
    catch e => return c.run (w.refuse .writing name (toString e))

/-- Show an outcome, and give the status with which the program ends. -/
def Outcome.report (o : Outcome) : IO UInt32 := do
  IO.print o.output
  for r in o.records do
    IO.eprintln r.toJson.compact
  if let some report := o.failure then
    IO.eprintln ("Error: " ++ report.render)
  return o.status.toUInt32

/-- Say why the program stops, and give the status with which it ends. -/
def Stop.perform (stop : Stop) : IO UInt32 := do
  match stop with
  | .help => IO.print usage
  | .misuse detail => IO.eprint ("error: " ++ detail ++ "\n" ++ usage)
  | .tornSetting => IO.eprintln ("cannot read " ++ Log.Filter.environmentVariable)
  return stop.status.toUInt32

def Invocation.perform (i : Invocation) (filter : Log.Filter) : IO UInt32 := do
  let configVariable ← IO.getEnv Config.environmentVariable
  let w ← i.command.fetch { configVariable, wording }
  let outcome ← i.command.perform w
  { outcome with records := Program.shown i filter outcome.records }.report

def runArgs (args : List String) : IO UInt32 := do
  let setting ← IO.getEnv Log.Filter.environmentVariable
  let plan := do
    let i ← Invocation.ofArgs args
    return (i, ← Program.filterOf i setting)
  match plan with
  | .error stop => stop.perform
  | .ok (i, filter) => i.perform filter

end Excerpt.Cli

def main (args : List String) : IO UInt32 := Excerpt.Cli.runArgs args
