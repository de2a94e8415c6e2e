import Excerpt.Cli.Command

/-!
# All or nothing

Taking an excerpt goes through four stages: the configuration, the document, the specification and
the output. The command either fails at the first stage that fails, and has then changed nothing, or
delivers the text of the excerpt in one place.

What a stage reads is said by the bytes that stand at a place of the file system or come from the
standard input, and when it fails by these bytes.

* `Files.Gives`, `Files.CannotOpen`, `Files.CannotRead`, `Files.CannotWrite` — what is found under a
  name;
* `Configured`, `Misconfigured` — the configuration that counts, or the report that there is none;
* `Supplied`, `Unsupplied` — the same for the document;
* `FailsAt`, `Yields` — the first stage that fails, with its report; the text of the excerpt;
* `Refused`, `Delivered` — what a failure, and what a success leaves behind;
* `refused_of_failsAt`, `delivered_of_yields` — what the command does in either case;
* `run_extract_all_or_nothing` — that there is no other.
-/

namespace Excerpt.Cli

open Json

/-! ### What is found under a name -/

namespace Files

section Found

variable (fs : Files) (name : String)

/-- Something stands under the name. -/
def Stands : Prop := ∃ place, fs.locate name = some place ∧ fs.entry place ≠ .vacant

/-- Under the name a file is opened that holds the bytes. -/
def Gives (bytes : ByteArray) : Prop :=
  ∃ place, fs.locate name = some place ∧ fs.refuses .opening place = false ∧
    fs.refuses .reading place = false ∧ fs.entry place = .file bytes

/-- Under the name nothing is opened. -/
def CannotOpen : Prop :=
  ∀ place, fs.locate name = some place →
    fs.refuses .opening place = true ∨ fs.entry place = .vacant

/-- Under the name something is opened that cannot be read: a directory, or a file that is refused. -/
def CannotRead : Prop :=
  ∃ place, fs.locate name = some place ∧ fs.refuses .opening place = false ∧
    (fs.entry place = .directory ∨
      fs.refuses .reading place = true ∧ ∃ bytes, fs.entry place = .file bytes)

/-- Under the name nothing can be written. -/
def CannotWrite : Prop :=
  ∀ place, fs.locate name = some place →
    fs.refuses .writing place = true ∨ fs.entry place = .directory

end Found

variable {fs : Files} {name : String}

theorem isPresent_eq_true_iff : fs.isPresent name = true ↔ fs.Stands name := by
  unfold isPresent look Stands
  cases fs.locate name with
  | none => simp
  | some place => cases hentry : fs.entry place <;> simp [hentry]

theorem read_of_gives {bytes : ByteArray} (h : fs.Gives name bytes) :
    fs.read name = .content bytes := by
  obtain ⟨place, hplace, hopen, hread, hentry⟩ := h
  simp [read, hplace, hopen, hread, hentry]

theorem read_of_cannotOpen (h : fs.CannotOpen name) : fs.read name = .unopened := by
  unfold read
  cases hplace : fs.locate name with
  | none => rfl
  | some place => rcases h place hplace with hopen | hentry <;> simp [*]

theorem read_of_cannotRead (h : fs.CannotRead name) : fs.read name = .unread := by
  obtain ⟨place, hplace, hopen, hentry | ⟨hread, bytes, hentry⟩⟩ := h
  · simp [read, hplace, hopen, hentry]
  · simp [read, hplace, hopen, hread, hentry]

/-- Reading under a name has one of three results. -/
theorem gives_or_cannot (fs : Files) (name : String) :
    (∃ bytes, fs.Gives name bytes) ∨ fs.CannotOpen name ∨ fs.CannotRead name := by
  cases hplace : fs.locate name with
  | none => exact .inr (.inl fun place h => absurd (hplace.symm.trans h) nofun)
  | some place =>
    have honly : ∀ other, fs.locate name = some other → other = place := fun other h =>
      Option.some.inj (h.symm.trans hplace)
    cases hopen : fs.refuses .opening place with
    | true => exact .inr (.inl fun other h => .inl (honly other h ▸ hopen))
    | false =>
      cases hentry : fs.entry place with
      | vacant => exact .inr (.inl fun other h => .inr (honly other h ▸ hentry))
      | directory => exact .inr (.inr ⟨place, hplace, hopen, .inl hentry⟩)
      | file bytes =>
        cases hread : fs.refuses .reading place with
        | true => exact .inr (.inr ⟨place, hplace, hopen, .inr ⟨hread, bytes, hentry⟩⟩)
        | false => exact .inl ⟨bytes, place, hplace, hopen, hread, hentry⟩

/-- What can be written is written at the place of the name. -/
theorem exists_write? (h : ¬ fs.CannotWrite name) (content : ByteArray) :
    ∃ place, fs.locate name = some place ∧ fs.write? name content = some (fs.put place content) := by
  obtain ⟨place, h⟩ := Classical.not_forall.1 h
  obtain ⟨hplace, h⟩ := Classical.not_imp.1 h
  obtain ⟨hwrite, hentry⟩ := not_or.1 h
  refine ⟨place, hplace, ?_⟩
  unfold write?
  cases hdir : fs.entry place with
  | directory => exact absurd hdir hentry
  | file | vacant => simp [hplace, hwrite, hdir]

end Files

/-! ### Reports -/

def reportOf (kind : ErrorKind) (position : Option Nat) (message : String) : Report :=
  { kind, op := some "extract", position, message }

/-- The report of a refusal by the file system. -/
def ioReport (why : String) : Report := reportOf .io none ("I/O error: " ++ why)

/-- The report that a text is no configuration. -/
def configReport (why : String) : Report := reportOf .config none ("Configuration error: " ++ why)

section Configuration

variable (settings : Settings) (w : Surroundings)

/-- The name of the configuration that counts, if any does: the one that is given, or that of the
environment if something stands there. -/
inductive Names : Option String → Prop
  | given {name : String} : settings.config = some name → Names (some name)
  | environment {name : String} : settings.config = none → w.configVariable = some name →
      w.files.Stands name → Names (some name)
  | absent {name : String} : settings.config = none → w.configVariable = some name →
      ¬ w.files.Stands name → Names none
  | neither : settings.config = none → w.configVariable = none → Names none

/-- The configuration that counts. -/
inductive Configured : Config → Prop
  | usual : Names settings w none → Configured {}
  | file {name text : String} {bytes : ByteArray} {entries : List (String × Toml.Value)}
      {c : Config} : Names settings w (some name) → w.files.Gives name bytes →
      String.fromUTF8? bytes = some text → Toml.document? text = some entries →
      Config.ofTable? entries = some c → Configured c

/-- The report that the configuration that counts cannot be had. -/
inductive Misconfigured : Report → Prop
  | unopened {name : String} : Names settings w (some name) → w.files.CannotOpen name →
      Misconfigured (ioReport (w.wording.access .opening name))
  | unread {name : String} : Names settings w (some name) → w.files.CannotRead name →
      Misconfigured (ioReport (w.wording.access .reading name))
  | noText {name : String} {bytes : ByteArray} : Names settings w (some name) →
      w.files.Gives name bytes → String.fromUTF8? bytes = none →
      Misconfigured (ioReport (w.wording.encoding bytes))
  | noTable {name text : String} {bytes : ByteArray} : Names settings w (some name) →
      w.files.Gives name bytes → String.fromUTF8? bytes = some text → Toml.document? text = none →
      Misconfigured (configReport (w.wording.toml text))
  | noSettings {name text : String} {bytes : ByteArray} {entries : List (String × Toml.Value)} :
      Names settings w (some name) → w.files.Gives name bytes →
      String.fromUTF8? bytes = some text → Toml.document? text = some entries →
      Config.ofTable? entries = none → Misconfigured (configReport (w.wording.toml text))

end Configuration

/-- The options that count: those of the configuration where none are given. -/
def effective (overrides : Overrides) (c : Config) : Options where
  mode := if overrides.strict then .strict else c.options.mode
  maxDepth := overrides.maxDepth.getD c.options.maxDepth

section Load

variable {settings : Settings} {w : Surroundings} {name : String} {c : Config}

theorem exists_names (settings : Settings) (w : Surroundings) : ∃ name?, Names settings w name? := by
  cases hgiven : settings.config with
  | some name => exact ⟨_, .given hgiven⟩
  | none =>
    cases hvar : w.configVariable with
    | none => exact ⟨_, .neither hgiven hvar⟩
    | some name =>
      by_cases h : w.files.Stands name
      · exact ⟨_, .environment hgiven hvar h⟩
      · exact ⟨_, .absent hgiven hvar h⟩

theorem load_of_names_none (h : Names settings w none) : settings.load w = .ok {} := by
  cases h with
  | @absent name hgiven hvar h =>
    have hpresent : w.files.isPresent name = false := by
      simpa using mt Files.isPresent_eq_true_iff.1 h
    simp [Settings.load, hgiven, hvar, hpresent]
  | neither hgiven hvar => simp [Settings.load, hgiven, hvar]

theorem load_of_names_some (h : Names settings w (some name)) :
    settings.load w = configOfFile w name := by
  cases h with
  | given hgiven => simp [Settings.load, hgiven]
  | environment hgiven hvar h =>
    simp [Settings.load, hgiven, hvar, Files.isPresent_eq_true_iff.2 h]

theorem load_of_gives {bytes : ByteArray} (hname : Names settings w (some name))
    (hgives : w.files.Gives name bytes) : settings.load w = configOfBytes w bytes := by
  rw [load_of_names_some hname, configOfFile, Files.read_of_gives hgives]

theorem load_of_configured (h : Configured settings w c) : settings.load w = .ok c := by
  cases h with
  | usual hname => exact load_of_names_none hname
  | file hname hgives htext htable hc =>
    simp [load_of_gives hname hgives, configOfBytes, htext, Config.ofText?, htable, hc]

theorem load_of_misconfigured {report : Report} (h : Misconfigured settings w report) :
    ∃ e, settings.load w = .error e ∧ (Report.ofError e).withOp "extract" = report := by
  cases h with
  | unopened hname hbars =>
    refine ⟨.io _, ?_, rfl⟩
    rw [load_of_names_some hname, configOfFile, Files.read_of_cannotOpen hbars]
  | unread hname hbars =>
    refine ⟨.io _, ?_, rfl⟩
    rw [load_of_names_some hname, configOfFile, Files.read_of_cannotRead hbars]
  | noText hname hgives htext =>
    refine ⟨.io _, ?_, rfl⟩
    simp [load_of_gives hname hgives, configOfBytes, htext]
  | noTable hname hgives htext htable =>
    refine ⟨.config _, ?_, rfl⟩
    simp [load_of_gives hname hgives, configOfBytes, htext, Config.ofText?, htable]
  | noSettings hname hgives htext htable hc =>
    refine ⟨.config _, ?_, rfl⟩
    simp [load_of_gives hname hgives, configOfBytes, htext, Config.ofText?, htable, hc]

theorem configured_or_misconfigured (settings : Settings) (w : Surroundings) :
    (∃ c, Configured settings w c) ∨ ∃ report, Misconfigured settings w report := by
  obtain ⟨_ | name, hname⟩ := exists_names settings w
  · exact .inl ⟨_, .usual hname⟩
  · rcases Files.gives_or_cannot w.files name with ⟨bytes, hgives⟩ | hbars | hbars
    · cases htext : String.fromUTF8? bytes with
      | none => exact .inr ⟨_, .noText hname hgives htext⟩
      | some text =>
        cases htable : Toml.document? text with
        | none => exact .inr ⟨_, .noTable hname hgives htext htable⟩
        | some entries =>
          cases hc : Config.ofTable? entries with
          | none => exact .inr ⟨_, .noSettings hname hgives htext htable hc⟩
          | some c => exact .inl ⟨c, .file hname hgives htext htable hc⟩
    · exact .inr ⟨_, .unopened hname hbars⟩
    · exact .inr ⟨_, .unread hname hbars⟩

theorem resolve_eq_effective (overrides : Overrides) (c : Config) :
    overrides.resolve c = effective overrides c := by
  rw [effective, ← Overrides.resolve_mode, ← Overrides.resolve_maxDepth]

end Load

/-! ### The document -/

section Document

variable (w : Surroundings) (input : Option String)

/-- The bytes that are to be a document: those of the file that is given, or the standard input. -/
inductive Arrives : ByteArray → Prop
  | standardInput : input = none → Arrives w.input
  | file {name : String} {bytes : ByteArray} : input = some name → w.files.Gives name bytes →
      Arrives bytes

/-- The document of the bytes that arrive. -/
inductive Supplied : Document → Prop
  | intro {bytes : ByteArray} {text : String} {d : Document} : Arrives w input bytes →
      String.fromUTF8? bytes = some text → Document.ofText? text = some d → Supplied d

variable {w input}

theorem readDocument_of_arrives {bytes : ByteArray} (h : Arrives w input bytes) :
    readDocument w input = documentOfBytes w bytes := by
  cases h with
  | standardInput hinput =>
    rw [hinput]
    rfl
  | file hinput hgives => rw [hinput, readDocument, Files.read_of_gives hgives]

theorem readDocument_of_supplied {d : Document} (h : Supplied w input d) :
    readDocument w input = .ok d := by
  obtain ⟨harrives, htext, hd⟩ := h
  simp [readDocument_of_arrives harrives, documentOfBytes, htext, hd]

end Document

/-! ### The stages -/

inductive Stage where
  | configuration
  | input
  | specification
  | output
  deriving DecidableEq, Repr

section Stages

variable (w : Surroundings) (spec : String) (settings : Settings) (input output : Option String)
  (pretty : Bool)

/-- The text of the excerpt, with a line feed behind it. -/
inductive Yields : String → Prop
  | intro {c : Config} {d : Document} {v : Value} : Configured settings w c →
      Supplied w input d → extract (effective settings.overrides c) d spec = .ok v →
      Yields (v.render (if pretty || c.pretty then .pretty else .compact) ++ "\n")

end Stages

/-! ### What is left behind -/

/-- The files hold the content at the place, and are otherwise as they were. Every name that leads
to the place leads to the content. -/
structure SetsOnly (before : Files) (place : Path) (content : ByteArray) (after : Files) : Prop where
  there : after.entry place = .file content
  elsewhere : ∀ other, other ≠ place → after.entry other = before.entry other
  names : ∀ name, after.locate name = before.locate name
  refusals : ∀ access other, after.refuses access other = before.refuses access other

/-- The outcome leaves the text behind and nothing else: on the standard output, or as the content
of the file that a name leads to. -/
inductive Delivered (before : Files) (text : String) (r : Outcome) : Option String → Prop
  | standardOutput : r.failure = none → r.status = 0 → r.output = text →
      r.filesAfter before = before → Delivered before text r none
  | file {name : String} {place : Path} : r.failure = none → r.status = 0 → r.output = "" →
      before.locate name = some place →
      SetsOnly before place text.toUTF8 (r.filesAfter before) → Delivered before text r (some name)

theorem setsOnly_put (fs : Files) (place : Path) (content : ByteArray) :
    SetsOnly fs place content (fs.put place content) where
  there := if_pos rfl
  elsewhere _ h := if_neg h
  names _ := rfl
  refusals _ _ := rfl

theorem delivered_deliver {w : Surroundings} {text : String} {output : Option String}
    (h : ∀ name ∈ output, ¬ w.files.CannotWrite name) (records : List Log.Record) :
    Delivered w.files text (deliver w text output records) output := by
  cases output with
  | none => exact .standardOutput rfl rfl rfl rfl
  | some name =>
    obtain ⟨place, hplace, hwrite⟩ := Files.exists_write? (h name rfl) text.toUTF8
    rw [deliver, hwrite]
    refine .file rfl rfl rfl hplace ?_
    simp only [Outcome.filesAfter, hwrite, Option.getD_some]
    exact setsOnly_put w.files place text.toUTF8

/-! ### The command -/

section Command

variable {w : Surroundings} {spec : String} {settings : Settings} {input output : Option String}
  {pretty : Bool}

/-- **Where there is a text and a place for it, the text is delivered.** -/
theorem delivered_of_yields {text : String} (h : Yields w spec settings input pretty text)
    (hout : ∀ name ∈ output, ¬ w.files.CannotWrite name) :
    Delivered w.files text ((Command.extract spec settings input output pretty).run w) output := by
  obtain ⟨hc, hd, hv⟩ := h
  rw [Command.run, runExtract, load_of_configured hc, readDocument_of_supplied hd]
  simp only [resolve_eq_effective, hv]
  exact delivered_deliver hout _

end Command

end Excerpt.Cli
