import Excerpt.Json.Value

/-!
# Nodes of a source

* `Node` — what stands at a place of a source: nothing, a scalar, a mapping or a sequence;
* `Node.child` — the node below a key: a mapping has its keys, a sequence its indices in canonical
  decimal notation, and nothing else has children;
* `Node.value?` — the value of a node.
-/

namespace Excerpt

open Json

/-- What stands at a place of a source. -/
inductive Node where
  /-- Nothing: no value has this path. -/
  | missing
  /-- The value `null`, a truth value, a number or a string. -/
  | scalar (v : Value)
  | mapping (entries : List (String × Value))
  | sequence (items : List Value)
  deriving DecidableEq

namespace Node

def of : Value → Node
  | .obj entries => .mapping entries
  | .arr items => .sequence items
  | v => .scalar v

/-- The node of a value that may be absent; the value `null` is present. -/
def ofOption : Option Value → Node
  | some v => of v
  | none => .missing

def child (node : Node) (key : String) : Node :=
  match node with
  | .mapping entries => ofOption (Entries.get? key entries)
  | .sequence items => ofOption ((Text.Numeral.ofCanonical? key).bind fun i => items[i]?)
  | .scalar _ | .missing => .missing

def value? : Node → Option Value
  | .missing => none
  | .scalar v => some v
  | .mapping entries => some (.obj entries)
  | .sequence items => some (.arr items)

/-- Whether nothing stands there. -/
def isMissing : Node → Bool
  | .missing => true
  | _ => false

/-- Whether an array stands there. -/
def isSequence : Node → Bool
  | .sequence _ => true
  | _ => false

@[simp] theorem value?_of (v : Value) : (of v).value? = some v := by cases v <;> rfl

@[simp] theorem value?_ofOption (v : Option Value) : (ofOption v).value? = v := by
  cases v with
  | none => rfl
  | some v => exact value?_of v

@[simp] theorem child_missing (key : String) : missing.child key = missing := rfl

@[simp] theorem child_scalar (v : Value) (key : String) : (scalar v).child key = missing := rfl

end Node

end Excerpt
