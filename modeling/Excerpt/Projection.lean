import Excerpt.Node
import Excerpt.Selection

/-!
# Projection

* `Skip` — a place where a selection is not followed, since the output already holds something else
  there;
* `pass` — set the value that one selection finds in a source, in the entries of an output, and note
  the skips. Source and output are walked in step: a container that the output lacks is created
  before the source is asked for a value, and at a sequence the rest of the way is taken for every
  element;
* `project`, `skips` — the output of a pass, and its skips;
* `KeySpec.apply` — the excerpt of a document: its selections projected one after another.
-/

namespace Excerpt

open Json

/-- The container that a step creates where the output has none. -/
def Node.emptySlot : Node → Value
  | .sequence _ => .emptyArr
  | _ => .emptyObj

namespace Projection

/-- What the output holds below a step, or the container that is created there. -/
def slot (child : Node) (step : String) (output : Entries Value) : Value :=
  (Entries.get? step output).getD child.emptySlot

/-- A place where a selection is not followed. -/
inductive Skip where
  /-- A sequence stands in the source, and no array in the output. -/
  | slotNotArray (step key : String)
  /-- No object stands in the output, at an element of an array. -/
  | elementNotMapping (step : String) (index : Nat) (key : String)
  | slotNotMapping (step key : String)
  deriving DecidableEq, Repr

namespace Skip

/-- The step below which the selection is not followed. -/
def step : Skip → String
  | .slotNotArray s _ | .elementNotMapping s _ _ | .slotNotMapping s _ => s

def key : Skip → String
  | .slotNotArray _ k | .elementNotMapping _ _ k | .slotNotMapping _ k => k

/-- The index of the element, where there is one. -/
def index? : Skip → Option Nat
  | .elementNotMapping _ i _ => some i
  | _ => none

def message : Skip → String
  | .slotNotArray .. => "output slot is not an array, skipping fan-out"
  | .elementNotMapping .. => "output element is not a mapping, skipping"
  | .slotNotMapping .. => "output slot is not a mapping, skipping descent"

end Skip

/-! ### One selection -/

/-- Change the entries of an object. Every other value is left alone, and that is noted. -/
def descend (f : Entries Value → Entries Value × List Skip) (skip : Skip) :
    Value → Value × List Skip
  | .obj entries =>
    let (entries, skips) := f entries
    (.obj entries, skips)
  | v => (v, [skip])

/-- Change a branch for every item, in step, the first of which has the index `i`. Branches that are
missing start as empty objects, and branches without an item stay as they are. -/
def descendAll (f : Nat → Value → Value → Value × List Skip) (i : Nat) :
    List Value → List Value → List Value × List Skip
  | [], branches => (branches, [])
  | item :: items, branches =>
    let (branch, skips) := f i item (branches.head?.getD .emptyObj)
    let (others, more) := descendAll f (i + 1) items branches.tail
    (branch :: others, skips ++ more)

/-- Set the value of `key`, found below the steps of a trajectory, in the entries of an output, and
note where the selection is not followed. -/
def pass : (trajectory : List String) → (key : String) → Node → Entries Value →
    Entries Value × List Skip
  | [], key, source, output =>
    match (source.child key).value? with
    | some v => (Entries.put key v output, [])
    | none => (output, [])
  | step :: rest, key, source, output =>
    let child := source.child step
    let (changed, skips) :=
      match child, slot child step output with
      | .sequence items, .arr branches =>
        let visit := fun i item =>
          descend (pass rest key (.of item)) (.elementNotMapping step i key)
        let (branches, skips) := descendAll visit 0 items branches
        (.arr branches, skips)
      | .sequence _, other => (other, [.slotNotArray step key])
      | child, other => descend (pass rest key child) (.slotNotMapping step key) other
    (Entries.put step changed output, skips)

/-- The entries of an output with the value of one selection. -/
def project (trajectory : List String) (key : String) (source : Node) (output : Entries Value) :
    Entries Value :=
  (pass trajectory key source output).1

/-- The places where one selection is not followed, in order. -/
def skips (trajectory : List String) (key : String) (source : Node) (output : Entries Value) :
    List Skip :=
  (pass trajectory key source output).2

theorem project_nil (key : String) (source : Node) (output : Entries Value) :
    project [] key source output =
      match (source.child key).value? with
      | some v => Entries.put key v output
      | none => output := by
  rw [project, pass]
  cases (source.child key).value? <;> rfl

theorem skips_nil (key : String) (source : Node) (output : Entries Value) :
    skips [] key source output = [] := by
  rw [skips, pass]
  cases (source.child key).value? <;> rfl

def select (source : Node) (output : Entries Value) (s : Selection) : Entries Value :=
  project s.trajectory s.key source output

/-- The skips of projecting selections one after another. -/
def skipsOf (source : Node) : Entries Value → List Selection → List Skip
  | _, [] => []
  | output, s :: ss =>
    skips s.trajectory s.key source output ++ skipsOf source (select source output s) ss

end Projection

namespace KeySpec

def excerpt (ks : KeySpec) (source : Node) : Entries Value :=
  ks.selections.foldl (Projection.select source) []

def apply (ks : KeySpec) (document : Value) : Value := .obj (ks.excerpt (.of document))

/-- The skips of taking an excerpt, in order. -/
def skips (ks : KeySpec) (document : Value) : List Projection.Skip :=
  Projection.skipsOf (.of document) [] ks.selections

end KeySpec

end Excerpt
