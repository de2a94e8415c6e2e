import Excerpt.Log.Record
import Excerpt.Projection
import Excerpt.Spec.Walk

/-!
# Extraction

* `extract` — the excerpt of a document that a specification names;
* `Extraction.Event` — what an extraction reports of itself;
* `Extraction.events` — these events in order: one start; the skips and one end, or one failure;
* `Extraction.records` — the same as log records.
-/

namespace Excerpt

open Json

/-- The excerpt of a document that a specification names. The whole specification is read first. -/
def extract (o : Options) (document : Value) (spec : String) : Except Spec.Fault Value :=
  (KeySpec.parse o spec).map fun ks => ks.apply document

section Extract

variable {o : Options} {spec : String}

theorem extract_eq_ok {ks : KeySpec} (hp : KeySpec.parse o spec = .ok ks) (d : Value) :
    extract o d spec = .ok (ks.apply d) := by
  rw [extract, hp]
  rfl

theorem extract_eq_error {fault : Spec.Fault} (hp : KeySpec.parse o spec = .error fault)
    (d : Value) : extract o d spec = .error fault := by
  rw [extract, hp]
  rfl

end Extract

namespace Extraction

/-- What an extraction reports of itself. -/
inductive Event where
  /-- It begins, with a specification of `specLength` bytes. -/
  | started (specLength : Nat) (mode : Mode)
  | skipped (skip : Projection.Skip)
  | ended (selections : Nat)
  | failed (report : Report)
  deriving DecidableEq, Repr

def target : String := "dataex_core::extractor"

def projectionTarget : String := "dataex_core::projector"

def skipRecord (skip : Projection.Skip) : Log.Record where
  level := .debug
  target := projectionTarget
  fields :=
    [(Log.Field.message, some (.text skip.message)), (Log.Field.step, some (.text skip.step))] ++
      skip.index?.toList.map (fun i => (Log.Field.index, some (.count i))) ++
      [(Log.Field.key, some (.text skip.key))]

def Event.record : Event → Log.Record
  | .started n mode =>
    .started target Log.Operation.extract.name
      [(Log.Field.specLength, some (.count n)), (Log.Field.mode, some (.text mode.name))]
  | .skipped skip => skipRecord skip
  | .ended n =>
    .ended target Log.Operation.extract.name none [(Log.Field.selections, some (.count n))]
  | .failed report => .failed target Log.Operation.extract.name report none []

/-- The events of an extraction, in order. -/
def events (o : Options) (document : Value) (spec : String) : List Event :=
  .started spec.utf8ByteSize o.mode ::
    match KeySpec.parse o spec with
    | .ok ks => (ks.skips document).map .skipped ++ [.ended ks.length]
    | .error fault => [.failed (.ofError (.spec fault))]

/-- The log records of an extraction, in order. -/
def records (o : Options) (document : Value) (spec : String) : List Log.Record :=
  (events o document spec).map Event.record

end Extraction

end Excerpt
