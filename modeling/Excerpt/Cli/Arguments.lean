import Excerpt.Config

/-!
# Arguments

* `Opt` — the options of the command line, with their names;
* `Scan`, `Scan.step` — reading arguments one by one: options in their long and short forms, values
  attached to them or behind them, and operands;
* `Invocation` — what is asked for;
* `Invocation.ofArgs` — the invocation of a list of arguments, or why there is none.
-/

namespace Excerpt.Cli

/-! ### Options -/

/-- An option of the command line. -/
inductive Opt where
  | verbose
  | logJson
  | help
  | config
  | strict
  | maxDepth
  | input
  | output
  | pretty
  deriving DecidableEq, Repr

namespace Opt

def long : Opt → String
  | .verbose => "verbose"
  | .logJson => "log-json"
  | .help => "help"
  | .config => "config"
  | .strict => "strict"
  | .maxDepth => "max-depth"
  | .input => "input"
  | .output => "output"
  | .pretty => "pretty"

def short? : Opt → Option Char
  | .verbose => some 'v'
  | .help => some 'h'
  | .config => some 'c'
  | .input => some 'i'
  | .output => some 'o'
  | _ => none

/-- Whether a value belongs to the option. -/
def takesValue : Opt → Bool
  | .config | .maxDepth | .input | .output => true
  | _ => false

/-- Whether a value is fit for the option: a limit is a number, and a path is not empty. -/
def admits (o : Opt) (value : String) : Bool :=
  match o with
  | .maxDepth => (Text.Numeral.ofUnsigned? value).isSome
  | _ => !value.isEmpty

/-- The options before and behind the name of a command. -/
def everywhere : List Opt := [.verbose, .logJson, .help]

end Opt

inductive Verb where
  | extract
  | parse
  deriving DecidableEq, Repr

namespace Verb

def ofName? (name : String) : Option Verb :=
  if name = "extract" then some .extract
  else if name = "parse" then some .parse
  else none

def options : Verb → List Opt
  | .extract => Opt.everywhere ++ [.config, .strict, .maxDepth, .input, .output, .pretty]
  | .parse => Opt.everywhere ++ [.config, .strict, .maxDepth]

end Verb

/-! ### Reading arguments -/

/-- Why the program stops before a command is run. -/
inductive Stop where
  /-- The user asks how to use the program. -/
  | help
  | misuse (detail : String)
  /-- The setting of the log filter is torn. -/
  | tornSetting
  deriving DecidableEq, Repr

def Stop.status : Stop → Nat
  | .help => 0
  | .misuse _ => 2
  | .tornSetting => 101

/-- What has been read of arguments. -/
structure Scan where
  /-- The options, with their values; an option without a value has an empty one. -/
  options : List (Opt × String) := []
  operands : List String := []
  awaiting : Option Opt := none
  operandsOnly : Bool := false
  deriving DecidableEq, Repr

namespace Scan

def value? (s : Scan) (o : Opt) : Option String :=
  (s.options.find? fun e => e.1 = o).map Prod.snd

def has (s : Scan) (o : Opt) : Bool := (s.value? o).isSome

/-- Read an option, at most once. -/
def record (s : Scan) (o : Opt) (value : String) : Except Stop Scan :=
  if s.has o then .error (.misuse ("repeated option --" ++ o.long))
  else if o.takesValue && !o.admits value then
    .error (.misuse ("invalid value for --" ++ o.long))
  else .ok { s with options := s.options ++ [(o, value)], awaiting := none }

/-- Read an option without a value. -/
def flag (s : Scan) (o : Opt) : Except Stop Scan :=
  if o = .help then .error .help else s.record o ""

/-- Read an option in its long form, behind the two dashes. -/
def longForm (known : List Opt) (s : Scan) (body : String) : Except Stop Scan :=
  let name := String.ofList (body.toList.takeWhile (· ≠ '='))
  let attached? := match body.toList.dropWhile (· ≠ '=') with
    | '=' :: value => some (String.ofList value)
    | _ => none
  match known.find? fun o => o.long = name, attached? with
  | none, _ => .error (.misuse ("unknown option --" ++ name))
  | some o, some value =>
    if o.takesValue then s.record o value
    else .error (.misuse ("no value belongs to --" ++ name))
  | some o, none => if o.takesValue then .ok { s with awaiting := some o } else s.flag o

/-- Read options in their short form, behind the dash. What follows an option that takes a value is
the value, with or without a sign of equality. -/
def shortForms (known : List Opt) (s : Scan) : List Char → Except Stop Scan
  | [] => .ok s
  | c :: cs =>
    match known.find? fun o => o.short? = some c with
    | none => .error (.misuse ("unknown option -" ++ String.ofList [c]))
    | some o =>
      if o.takesValue then
        match cs with
        | [] => .ok { s with awaiting := some o }
        | '=' :: value => s.record o (String.ofList value)
        | value => s.record o (String.ofList value)
      else
        match s.flag o with
        | .error stop => .error stop
        | .ok s => shortForms known s cs

/-- The complaint that a value is missing. -/
def missingValue (o : Opt) : Stop := .misuse ("a value is required for --" ++ o.long)

/-- Read one argument. Only a lone dash, and what does not begin with a dash, is an operand or the
value of the option before it. -/
def step (known : List Opt) (s : Scan) (arg : String) : Except Stop Scan :=
  match s.operandsOnly, arg.toList, s.awaiting with
  | true, _, some o => .error (missingValue o)
  | true, _, none => .ok { s with operands := s.operands ++ [arg] }
  | false, ['-', '-'], _ => .ok { s with operandsOnly := true }
  | false, '-' :: _ :: _, some o => .error (missingValue o)
  | false, '-' :: '-' :: body, none => longForm known s (String.ofList body)
  | false, '-' :: c :: cs, none => shortForms known s (c :: cs)
  | false, _, some o => s.record o arg
  | false, _, none => .ok { s with operands := s.operands ++ [arg] }

/-- Check what all arguments together must fulfil: no value is missing, and the two forms of log
records exclude each other. -/
def finish (s : Scan) : Except Stop Scan :=
  match s.awaiting with
  | some o => .error (missingValue o)
  | none =>
    if s.has .verbose && s.has .logJson then .error (.misuse "--verbose excludes --log-json")
    else .ok s

end Scan

/-! ### Invocations -/

/-- The settings that all commands share. -/
structure Settings where
  config : Option String := none
  overrides : Overrides := {}
  deriving DecidableEq, Repr

inductive Command where
  /-- Take an excerpt of `input` and write it to `output`, or else the standard streams. -/
  | extract (spec : String) (settings : Settings) (input output : Option String) (pretty : Bool)
  /-- List the selections of a specification. -/
  | parse (spec : String) (settings : Settings)
  deriving DecidableEq, Repr

structure Invocation where
  /-- Whether readable log records are asked for. -/
  verbose : Bool
  /-- Whether log records in JSON are asked for. -/
  logJson : Bool
  command : Command
  deriving DecidableEq, Repr

namespace Invocation

/-- The command of the arguments behind its name. -/
def commandOf (verb : Verb) (s : Scan) : Except Stop Command :=
  match s.operands with
  | [] => .error (.misuse "a specification is required")
  | [spec] =>
    let settings : Settings :=
      { config := s.value? .config,
        overrides :=
          { strict := s.has .strict,
            maxDepth := (s.value? .maxDepth).bind Text.Numeral.ofUnsigned? } }
    match verb with
    | .extract =>
      .ok (.extract spec settings (s.value? .input) (s.value? .output) (s.has .pretty))
    | .parse => .ok (.parse spec settings)
  | _ :: extra :: _ => .error (.misuse ("unexpected argument " ++ extra))

/-- The name that stands for asking how to use a command. -/
def helpVerb : String := "help"

/-- Asking how to use the program, or a command of it. -/
def helpOn : List String → Stop
  | [] => .help
  | [name] =>
    if name = helpVerb || (Verb.ofName? name).isSome then .help
    else .misuse ("unknown command " ++ name)
  | _ :: extra :: _ => .misuse ("unexpected argument " ++ extra)

/-- Read the arguments up to the name of a command, and those behind it. -/
def ofArgsFrom (s : Scan) : List String → Except Stop Invocation
  | [] => .error (.misuse "a command is required")
  | arg :: args =>
    match if s.operandsOnly then none else Verb.ofName? arg with
    | some verb => do
      let inner ← (← args.foldlM (Scan.step verb.options) {}).finish
      let command ← commandOf verb inner
      let outer ← s.finish
      return {
        verbose := outer.has .verbose || inner.has .verbose
        logJson := outer.has .logJson || inner.has .logJson
        command }
    | none =>
      if arg = helpVerb && !s.operandsOnly then .error (helpOn args)
      else
        match Scan.step Opt.everywhere s arg with
        | .error stop => .error stop
        | .ok next =>
          if next.operands.isEmpty then ofArgsFrom next args
          else .error (.misuse ("unknown command " ++ arg))

/-- The invocation of a list of arguments. Options that stand before and behind the name of the
command count together. -/
def ofArgs (args : List String) : Except Stop Invocation := ofArgsFrom {} args

end Invocation

end Excerpt.Cli
