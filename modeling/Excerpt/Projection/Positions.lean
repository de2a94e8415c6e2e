import Excerpt.Projection

/-!
# Positions in a value

* `Position` — the keys and indices that lead from the root of a value to a place in it;
* `Value.leaves` — the scalars of a value with their positions;
* `Selection.reached` — the positions of a source at which a selection finds a value.
-/

namespace Excerpt

open Json

/-- Keys and decimal indices, outermost first. -/
abbrev Position := List String

namespace Json.Value

mutual

/-- The scalars of a value with their positions. -/
def leaves : Value → List (Position × Value)
  | .arr items => leavesL 0 items
  | .obj entries => leavesE entries
  | v => [([], v)]

/-- The scalars of elements, the first of which has the index `i`. -/
def leavesL (i : Nat) : List Value → List (Position × Value)
  | [] => []
  | v :: vs => (leaves v).map (fun l => (toString i :: l.1, l.2)) ++ leavesL (i + 1) vs

def leavesE : List (String × Value) → List (Position × Value)
  | [] => []
  | (k, v) :: es => (leaves v).map (fun l => (k :: l.1, l.2)) ++ leavesE es

end

end Json.Value

/-- The positions below a node at which a key is found behind the steps of a trajectory. At a
sequence the rest of the way is taken from every element. -/
def Node.reached : (trajectory : List String) → (key : String) → Node → List Position
  | [], key, node => if (node.child key).isMissing then [] else [[key]]
  | step :: rest, key, node =>
    match node.child step with
    | .sequence items =>
      items.zipIdx.flatMap fun (item, i) =>
        (Node.reached rest key (.of item)).map fun p => step :: toString i :: p
    | child => (Node.reached rest key child).map (step :: ·)

/-- The positions of a document at which a selection finds a value. -/
def Selection.reached (s : Selection) (document : Value) : List Position :=
  Node.reached s.trajectory s.key (.of document)

/-- A selection that finds nothing below a key that is missing reaches no position. -/
theorem Node.reached_missing (trajectory : List String) (key : String) :
    Node.reached trajectory key .missing = [] := by
  induction trajectory with
  | nil => simp [Node.reached, Node.isMissing]
  | cons step rest ih => simp [Node.reached, ih]

end Excerpt
