import Excerpt.Extraction
import Excerpt.Log.Capture
import Excerpt.Proofs.Narrowing
import Excerpt.Proofs.Skips

/-!
# What the log tells of an extraction

The log of an extraction begins with its options and ends with its outcome. In between there are
only the places where a selection is not followed, selection by selection.

* `TellsStart`, `TellsSkip`, `TellsEnd`, `TellsFailure` — what a record says;
* `key_and_step_of_mem_skips` — a skip names the selection and a step of its way;
* `skipGroups` — the skips of each selection, and `forall₂_skipGroups` what they have in common;
* `records_tell_outcome` — the whole log.
-/

namespace Excerpt.Projection

open Json

/-- **A skip names its selection**: the key, and the step below which it is not followed. -/
theorem key_and_step_of_mem_skips {node : Node} {output : Entries Value} {trajectory : List String}
    {key : String} {skip : Skip} (h : skip ∈ skips trajectory key node output) :
    skip.key = key ∧ skip.step ∈ trajectory := by
  induction trajectory generalizing node output with
  | nil => exact absurd (skips_nil key .. ▸ h) List.not_mem_nil
  | cons step rest ih =>
    have hskip := skipped_of_mem_skips h
    generalize node.child step = child at hskip
    generalize slot child step output = slot at hskip
    cases hskip with
    | inElement _ _ hbelow => exact (ih hbelow).imp_right (List.mem_cons_of_mem _)
    | inSlot _ hbelow => exact (ih hbelow).imp_right (List.mem_cons_of_mem _)
    | elementNotMapping => exact ⟨rfl, List.mem_cons_self⟩
    | slotNotArray => exact ⟨rfl, List.mem_cons_self⟩
    | slotNotMapping => exact ⟨rfl, List.mem_cons_self⟩

/-- The skips of each selection, which are projected one after another. -/
def skipGroups (node : Node) : Entries Value → List Selection → List (List Skip)
  | _, [] => []
  | output, s :: ss =>
    skips s.trajectory s.key node output :: skipGroups node (select node output s) ss

theorem flatten_skipGroups (node : Node) (output : Entries Value) (ss : List Selection) :
    (skipGroups node output ss).flatten = skipsOf node output ss := by
  induction ss generalizing output with
  | nil => rfl
  | cons s ss ih => rw [skipGroups, skipsOf, List.flatten_cons, ih]

theorem forall₂_skipGroups (node : Node) (output : Entries Value) (ss : List Selection) :
    List.Forall₂ (fun s group => ∀ skip ∈ group, skip.key = s.key ∧ skip.step ∈ s.trajectory) ss
      (skipGroups node output ss) := by
  induction ss generalizing output with
  | nil => exact .nil
  | cons s ss ih => exact .cons (fun _ => key_and_step_of_mem_skips) (ih _)

/-- **A skip of a run has a cause in the run**: a selection, projected before or in the run, that
ends on the way of another. -/
theorem exists_of_mem_skipsOf {node : Node} {done ss : List Selection} {skip : Skip}
    (h : skip ∈ skipsOf node (done.foldl (select node) []) ss) :
    ∃ s ∈ ss, ∃ t ∈ done ++ ss, t.path <+: s.trajectory := by
  induction ss generalizing done with
  | nil => exact absurd h List.not_mem_nil
  | cons s ss ih =>
    rcases List.mem_append.1 h with h | h
    · obtain ⟨t, ht, hpre⟩ := exists_prefix_of_mem_skips h
      exact ⟨s, List.mem_cons_self, t, List.mem_append_left _ ht, hpre⟩
    · have hrest : skip ∈ skipsOf node ((done ++ [s]).foldl (select node) []) ss := by
        rwa [List.foldl_append]
      obtain ⟨s', hs', t, ht, hpre⟩ := ih hrest
      rw [← List.append_cons] at ht
      exact ⟨s', List.mem_cons_of_mem _ hs', t, ht, hpre⟩

/-- **Nothing is skipped** where no selection goes on below the end of another. -/
theorem skipsOf_eq_nil (node : Node) {ss : List Selection} (h : ∀ s ∈ ss, Unextended s ss) :
    skipsOf node [] ss = [] := by
  refine List.eq_nil_iff_forall_not_mem.2 fun skip hskip => ?_
  have hskip : skip ∈ skipsOf node (([] : List Selection).foldl (select node) []) ss := hskip
  obtain ⟨s, hs, t, ht, hpre⟩ := exists_of_mem_skipsOf hskip
  have hpath := h t ht s hs (hpre.trans (List.prefix_append _ _))
  -- a path that is the beginning of a trajectory is shorter than the path of it
  have hlen := hpre.length_le
  rw [← hpath, Selection.path, List.length_append, List.length_singleton] at hlen
  omega

end Excerpt.Projection

namespace Excerpt.Extraction

open Json Log Projection

/-- The record begins an extraction: it has the length of the specification in bytes, blanks
included, and the mode. -/
structure TellsStart (o : Options) (spec : String) (r : Record) : Prop where
  level : r.level = .info
  op : r.field? Field.op = some "extract"
  event : r.field? Field.event = some "start"
  specLength : r.field? Field.specLength = some (toString spec.utf8ByteSize)
  mode : r.field? Field.mode = some o.mode.name

/-- The record tells where a selection is not followed: it has the key and a step of its way. -/
structure TellsSkip (s : Selection) (r : Record) : Prop where
  level : r.level = .debug
  target : r.target = projectionTarget
  key : r.field? Field.key = some s.key
  step : ∃ step ∈ s.trajectory, r.field? Field.step = some step

/-- The record ends an extraction that succeeds. -/
structure TellsEnd (ks : KeySpec) (r : Record) : Prop where
  level : r.level = .info
  op : r.field? Field.op = some "extract"
  event : r.field? Field.event = some "end"
  selections : r.field? Field.selections = some (toString ks.length)

/-- The record ends an extraction that fails: it has kind, code and place of the report. -/
structure TellsFailure (report : Report) (r : Record) : Prop where
  level : r.level = .error
  op : r.field? Field.op = some "extract"
  event : r.field? Field.event = some "end_error"
  kind : r.field? Field.errorKind = some report.kind.name
  code : r.field? Field.errorCode = some report.code
  position : r.field? Field.position = report.position.map toString

theorem tellsStart_record (o : Options) (spec : String) :
    TellsStart o spec (Event.started spec.utf8ByteSize o.mode).record := ⟨rfl, rfl, rfl, rfl, rfl⟩

theorem tellsSkip_record {s : Selection} {skip : Projection.Skip} (hkey : skip.key = s.key)
    (hstep : skip.step ∈ s.trajectory) : TellsSkip s (Event.skipped skip).record where
  level := rfl
  target := rfl
  key := by
    rw [← hkey]
    cases skip <;> rfl
  step := ⟨skip.step, hstep, by cases skip <;> rfl⟩

theorem tellsEnd_record (ks : KeySpec) : TellsEnd ks (Event.ended ks.length).record :=
  ⟨rfl, rfl, rfl, rfl⟩

theorem tellsFailure_record (report : Report) :
    TellsFailure report (Event.failed report).record := by
  obtain ⟨kind, op, position, message⟩ := report
  exact ⟨rfl, rfl, rfl, rfl, rfl, by cases position <;> rfl⟩

/-- The records of skips tell of the selections that are skipped. -/
theorem forall₂_tellsSkip {ss : List Selection} {groups : List (List Projection.Skip)}
    (h : List.Forall₂ (fun s group => ∀ skip ∈ group, skip.key = s.key ∧
      skip.step ∈ s.trajectory) ss groups) :
    List.Forall₂ (fun s group => ∀ r ∈ group, TellsSkip s r) ss
      (groups.map (List.map fun skip => (Event.skipped skip).record)) := by
  refine List.forall₂_map_right_iff.2 (h.imp fun s group hgroup r hr => ?_)
  obtain ⟨skip, hskip, rfl⟩ := List.mem_map.1 hr
  obtain ⟨hkey, hstep⟩ := hgroup skip hskip
  exact tellsSkip_record hkey hstep

section Records

variable {o : Options} {spec : String} (d : Value)

theorem records_of_ok {ks : KeySpec} (h : KeySpec.parse o spec = .ok ks) :
    records o d spec = (Event.started spec.utf8ByteSize o.mode).record ::
      ((ks.skips d).map (fun skip => (Event.skipped skip).record) ++
        [(Event.ended ks.length).record]) := by
  rw [records, events, h, List.map_cons, List.map_append, List.map_map]
  rfl

theorem records_of_error {fault : Spec.Fault} (h : KeySpec.parse o spec = .error fault) :
    records o d spec = [(Event.started spec.utf8ByteSize o.mode).record,
      (Event.failed (.ofError (.spec fault))).record] := by
  rw [records, events, h]
  rfl

end Records

/-- **The log of an extraction tells its outcome.** Its first record tells the start. If the
specification is read, the last record tells the end, and in between stand records of skips, which
follow the order of the selections; there are none where no selection goes on below the end of
another. If it is not read, one more record tells the failure, and there is nothing else. -/
theorem records_tell_outcome (o : Options) (d : Value) (spec : String) :
    ∃ first rest, records o d spec = first :: rest ∧ TellsStart o spec first ∧
      (∀ ks, KeySpec.parse o spec = .ok ks →
        ∃ groups last, rest = groups.flatten ++ [last] ∧
          List.Forall₂ (fun s group => ∀ r ∈ group, TellsSkip s r) ks.selections groups ∧
          ((∀ s ∈ ks.selections, Unextended s ks.selections) → groups.flatten = []) ∧
          TellsEnd ks last) ∧
      ∀ fault, KeySpec.parse o spec = .error fault →
        ∃ last, rest = [last] ∧ TellsFailure (.ofError (.spec fault)) last := by
  cases hp : KeySpec.parse o spec with
  | ok ks =>
    refine ⟨_, _, records_of_ok d hp, tellsStart_record o spec, ?_, nofun⟩
    rintro _ ⟨⟩
    have htells := forall₂_tellsSkip (forall₂_skipGroups (.of d) [] ks.selections)
    have hflatten : ((skipGroups (.of d) [] ks.selections).map
        (List.map fun skip => (Event.skipped skip).record)).flatten =
          (ks.skips d).map fun skip => (Event.skipped skip).record := by
      rw [← List.map_flatten, flatten_skipGroups]
      rfl
    refine ⟨_, _, congrArg (· ++ [_]) hflatten.symm, htells, fun hun => ?_, tellsEnd_record ks⟩
    rw [hflatten, KeySpec.skips, skipsOf_eq_nil _ hun, List.map_nil]
  | error fault =>
    refine ⟨_, _, records_of_error d hp, tellsStart_record o spec, nofun, ?_⟩
    rintro _ ⟨⟩
    exact ⟨_, rfl, tellsFailure_record _⟩

/-- The elements of a copied array are entered where they are objects, and skipped elsewhere. -/
example : (records .default (.obj [("a", .arr [.null, .obj [], .bool true])]) "a, a.b").map
    (fun r => (r.level, r.field? Field.index)) =
      [(.info, none), (.debug, some "0"), (.debug, some "2"), (.info, none)] := by
  decide +kernel

end Excerpt.Extraction
