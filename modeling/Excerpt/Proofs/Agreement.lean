import Excerpt.Proofs.Delivery
import Excerpt.Proofs.Listing

/-!
# The two commands agree

Listing the selections of a specification and taking an excerpt fail alike, and what is listed
stands for the specification: joined by commas, the lines give the same excerpt.

* `ConsistsOf` — a text consists of lines;
* `not_isBlank_of_mem_dotted`, `dotted_ne_empty` — a selection is listed on a line of its own;
* `Cli.Reports`, `Cli.excerpted` — a failure under the name of an operation, and an excerpt from the
  standard input to the standard output;
* `Cli.excerpted_of_parse` — what is read in the same way gives the same excerpt;
* `Cli.run_parse_agrees` — both commands, for every specification.
-/

namespace Excerpt

/-! ### Lines -/

/-- A text consists of lines, each with a line feed behind it. -/
def ConsistsOf (text : String) (lines : List String) : Prop :=
  text.toList.splitOn '\n' = lines.map String.toList ++ [[]]

theorem consistsOf_join {lines : List String} (h : ∀ line ∈ lines, '\n' ∉ line.toList) :
    ConsistsOf (String.join (lines.map fun line => line ++ "\n")) lines := by
  have hjoin : (String.join (lines.map fun line => line ++ "\n")).toList =
      ['\n'].intercalate (lines.map String.toList ++ [[]]) := by
    rw [Spec.intercalate_snoc, String.toList_join]
    simp [List.flatMap_map]
  rw [ConsistsOf, hjoin]
  refine List.splitOn_intercalate '\n' (fun cs hcs => ?_) (by simp)
  rcases List.mem_append.1 hcs with hcs | hcs
  · obtain ⟨line, hline, rfl⟩ := List.mem_map.1 hcs
    exact h line hline
  · rw [List.mem_singleton.1 hcs]
    exact List.not_mem_nil

section Dotted

variable {o : Options} {s : Selection}

theorem not_isBlank_of_mem_dotted (h : Spec.Legible o s) {c : Char} (hc : c ∈ s.dotted.toList) :
    Text.isBlank c = false := by
  have hlisting : c ∈ Spec.listingChars [s] := by rwa [Spec.toList_dotted] at hc
  exact (Spec.not_isBlank_of_mem_listing (List.forall_mem_singleton.2 h) hlisting).1

theorem dotted_ne_empty (h : Spec.Legible o s) : s.dotted ≠ "" := by
  intro hempty
  have hchars := Spec.toList_dotted s
  rw [hempty] at hchars
  have hkey : s.key.toList = [] := (List.append_eq_nil_iff.1 hchars.symm).2
  exact h.ne_empty (String.toList_inj.1 hkey)

end Dotted

namespace Cli

open Json

/-! ### Outcomes -/

/-- The outcome reports the error, under the name of the operation. -/
def Reports (op : Log.Operation) (e : Error) (r : Outcome) : Prop :=
  r.failure = some ((Report.ofError e).withOp op.name)

/-- The outcome of taking an excerpt of the standard input to the standard output. -/
def excerpted (w : Surroundings) (settings : Settings) (pretty : Bool) (input : ByteArray)
    (spec : String) : Outcome :=
  (Command.extract spec settings none none pretty).run { w with input }

section Commands

variable {w : Surroundings} {spec : String} {settings : Settings} {input : ByteArray} {d : Document}
  {c : Config} {ks : KeySpec}

/-- The standard input has no part in the configuration. -/
theorem Configured.with_input (h : Configured settings w c) (input : ByteArray) :
    Configured settings { w with input } c := by
  have hnames : ∀ {name?}, Names settings w name? → Names settings { w with input } name? := by
    intro name? hname
    cases hname with
    | given hgiven => exact .given hgiven
    | environment hgiven hvar hstands => exact .environment hgiven hvar hstands
    | absent hgiven hvar hstands => exact .absent hgiven hvar hstands
    | neither hgiven hvar => exact .neither hgiven hvar
  cases h with
  | usual hname => exact .usual (hnames hname)
  | file hname hgives htext htable hc => exact .file (hnames hname) hgives htext htable hc

/-- What is read as certain selections gives their excerpt. -/
theorem excerpted_of_parse (pretty : Bool)
    (hd : (String.fromUTF8? input).bind Document.ofText? = some d) (hc : Configured settings w c)
    (hp : KeySpec.parse (effective settings.overrides c) spec = .ok ks) :
    (excerpted w settings pretty input spec).failure = none ∧
      (excerpted w settings pretty input spec).output =
        (ks.apply d).render (if pretty || c.pretty then .pretty else .compact) ++ "\n" := by
  obtain ⟨text, htext, hd⟩ := Option.bind_eq_some_iff.1 hd
  have hsupplied : Supplied { w with input } none d := .intro (.standardInput rfl) htext hd
  have hyields : Yields { w with input } spec settings none pretty _ :=
    .intro (hc.with_input input) hsupplied (extract_eq_ok hp d)
  have hdelivered : Delivered w.files _ (excerpted w settings pretty input spec) none :=
    delivered_of_yields hyields nofun
  cases hdelivered with
  | standardOutput hfailure _ houtput _ => exact ⟨hfailure, houtput⟩

/-- What is read is listed, one selection a line. -/
theorem listed_of_parse (hc : Configured settings w c)
    (hp : KeySpec.parse (effective settings.overrides c) spec = .ok ks) :
    ((Command.parse spec settings).run w).failure = none ∧
      ConsistsOf ((Command.parse spec settings).run w).output
        (ks.selections.map Selection.dotted) := by
  have hlines : ∀ line ∈ ks.selections.map Selection.dotted, '\n' ∉ line.toList := by
    intro line hline hmem
    obtain ⟨s, hs, rfl⟩ := List.mem_map.1 hline
    have hblank := not_isBlank_of_mem_dotted (Spec.legible_of_parse hp s hs) hmem
    exact absurd hblank (by decide)
  have hjoin := consistsOf_join hlines
  rw [List.map_map] at hjoin
  rw [Command.run, runParse, load_of_configured hc]
  simp only [resolve_eq_effective, hp]
  exact ⟨trivial, hjoin⟩

/-- A fault of the specification is reported by both commands. -/
theorem reports_of_parse_error (pretty : Bool) {fault : Spec.Fault}
    (hd : (String.fromUTF8? input).bind Document.ofText? = some d) (hc : Configured settings w c)
    (hp : KeySpec.parse (effective settings.overrides c) spec = .error fault) :
    Reports .parse (.spec fault) ((Command.parse spec settings).run w) ∧
      Reports .extract (.spec fault) (excerpted w settings pretty input spec) := by
  obtain ⟨text, htext, hd⟩ := Option.bind_eq_some_iff.1 hd
  have hread : readDocument { w with input } none = .ok d :=
    readDocument_of_supplied (.intro (.standardInput rfl) htext hd)
  constructor
  · rw [Command.run, runParse, load_of_configured hc]
    simp only [resolve_eq_effective, hp]
    rfl
  · rw [excerpted, Command.run, runExtract, load_of_configured (hc.with_input input), hread]
    simp only [resolve_eq_effective, extract_eq_error hp]
    rfl

/-- What bars a configuration is reported by both commands. -/
theorem exists_reports_of_misconfigured (pretty : Bool) (input : ByteArray) {report : Report}
    (h : Misconfigured settings w report) :
    ∃ e, Reports .parse e ((Command.parse spec settings).run w) ∧
      Reports .extract e (excerpted w settings pretty input spec) := by
  obtain ⟨e, hload, -⟩ := load_of_misconfigured h
  have hsame : settings.load { w with input } = .error e := hload
  refine ⟨e, ?_, ?_⟩
  · rw [Command.run, runParse, hload]
    rfl
  · rw [excerpted, Command.run, runExtract, hsame]
    rfl

end Commands

/-- **Listing and taking an excerpt agree** on every specification, where the input is a document.
Either both report the same error, each under the name of its operation; or both succeed, the
listing has one line for each selection, none of them empty, and the lines joined by commas give the
same excerpt as the specification. -/
theorem run_parse_agrees (w : Surroundings) (spec : String) (settings : Settings) (pretty : Bool)
    {input : ByteArray} {d : Document}
    (hd : (String.fromUTF8? input).bind Document.ofText? = some d) :
    (∃ e, Reports .parse e ((Command.parse spec settings).run w) ∧
      Reports .extract e (excerpted w settings pretty input spec)) ∨
    (((Command.parse spec settings).run w).failure = none ∧
      (excerpted w settings pretty input spec).failure = none ∧
      ∃ c ks lines, Configured settings w c ∧
        KeySpec.parse (effective settings.overrides c) spec = .ok ks ∧
        (excerpted w settings pretty input spec).output =
          (ks.apply d).render (if pretty || c.pretty then .pretty else .compact) ++ "\n" ∧
        lines = ks.selections.map Selection.dotted ∧
        ConsistsOf ((Command.parse spec settings).run w).output lines ∧
        (∀ line ∈ lines, line ≠ "" ∧ ∀ ch ∈ line.toList, Text.isBlank ch = false) ∧
        (excerpted w settings pretty input (",".intercalate lines)).failure = none ∧
        (excerpted w settings pretty input (",".intercalate lines)).output =
          (excerpted w settings pretty input spec).output) := by
  rcases configured_or_misconfigured settings w with ⟨c, hc⟩ | ⟨report, hc⟩
  · cases hp : KeySpec.parse (effective settings.overrides c) spec with
    | error fault => exact .inl ⟨_, reports_of_parse_error pretty hd hc hp⟩
    | ok ks =>
      have hlegible := Spec.legible_of_parse hp
      have hlisting := Spec.parse_of_legible hlegible
      obtain ⟨hlisted, hlines⟩ := listed_of_parse hc hp
      obtain ⟨hfailure, houtput⟩ := excerpted_of_parse pretty hd hc hp
      obtain ⟨hagain, hsame⟩ := excerpted_of_parse pretty hd hc hlisting
      refine .inr ⟨hlisted, hfailure, c, ks, _, hc, hp, houtput, rfl, hlines, fun line hline => ?_,
        hagain, hsame.trans houtput.symm⟩
      obtain ⟨s, hs, rfl⟩ := List.mem_map.1 hline
      exact ⟨dotted_ne_empty (hlegible s hs), fun ch => not_isBlank_of_mem_dotted (hlegible s hs)⟩
  · exact .inl (exists_reports_of_misconfigured pretty input hc)

/-- A document, as it comes from the standard input. -/
def pairText : ByteArray := "[[null],true]".toUTF8

def pairInPair : Document := .ofValue (.arr [.arr [.null], .bool true])

/-- An empty step, and a bracket that closes nothing, behind which nothing is read. -/
theorem run_parse_agrees_on_empty_step :
    (String.fromUTF8? pairText).bind Document.ofText? = some pairInPair ∧
    ConsistsOf ((Command.parse "0. .0, 1]x" {}).run {}).output ["0..0", "1"] ∧
    (excerpted {} {} false pairText "0..0,1").failure = none ∧
    (excerpted {} {} false pairText "0..0,1").output =
      (excerpted {} {} false pairText "0. .0, 1]x").output := by
  have hd : (String.fromUTF8? pairText).bind Document.ofText? = some pairInPair := by rfl
  have hc : Configured {} {} {} := .usual (.neither rfl rfl)
  have hp : KeySpec.parse (effective {} {}) "0. .0, 1]x" =
      .ok ⟨[⟨["0", ""], "0"⟩, ⟨[], "1"⟩]⟩ := by
    rw [Spec.parse_eq_run]
    rfl
  have hrun : ((Command.parse "0. .0, 1]x" {}).run {}).failure = none := (listed_of_parse hc hp).1
  rcases run_parse_agrees {} "0. .0, 1]x" {} false hd with
    ⟨e, hreports, -⟩ | ⟨-, -, c, ks, lines, hconf, hks, -, hlines, hlisted, -, hagain, hsame⟩
  · rw [Reports, hrun] at hreports
    cases hreports
  · obtain rfl : _ = c := Except.ok.inj ((load_of_configured hc).symm.trans (load_of_configured hconf))
    obtain rfl : _ = ks := Except.ok.inj (hp.symm.trans hks)
    subst hlines
    exact ⟨hd, hlisted, hagain, hsame⟩

end Cli

end Excerpt
