import Excerpt.Log.Record

/-!
# Captured records

* `Capture` — the records of a run, in order;
* `Capture.eventsFor` — those of one operation and one of its ends;
* `Capture.missing?` — the complaint that there are none.
-/

namespace Excerpt.Log

/-- The records of a run, in order. -/
abbrev Capture := List Record

namespace Capture

/-- The records of an operation and an end of it, both by name. -/
def eventsFor (records : Capture) (op event : String) : Capture :=
  records.filter fun r => r.field? Field.op = some op ∧ r.field? Field.event = some event

def fieldTexts (records : Capture) (name : String) : List (Option String) :=
  records.map fun r => r.field? name

def countLevel (records : Capture) (level : Level) : Nat :=
  records.countP fun r => r.level = level

/-- The complaint that an operation lacks an end, if it does. -/
def missing? (records : Capture) (op event : String) : Option String :=
  if (eventsFor records op event).isEmpty then
    some ("Expected event op=" ++ op ++ " event=" ++ event ++ " not found in " ++
      toString records.length ++ " captured events")
  else none

theorem missing?_eq_none_iff {records : Capture} {op event : String} :
    missing? records op event = none ↔
      ∃ r ∈ records, r.field? Field.op = some op ∧ r.field? Field.event = some event := by
  simp [missing?, eventsFor, List.isEmpty_iff]

end Capture

end Excerpt.Log
