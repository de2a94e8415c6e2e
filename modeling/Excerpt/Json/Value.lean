import Excerpt.Entries
import Excerpt.Json.Number

/-!
# Values of JSON

* `Value` — a value; an object is a list of entries;
* `Value.Ordered` — all objects in a value have their keys in increasing order, which makes equality
  of values equality of documents;
* `Value.canonical` — the ordered value of a text: of two entries with one key the last counts;
* `Document` — a value that is ordered;
* `Value.nesting` — how deeply containers are nested.
-/

namespace Excerpt.Json

inductive Value where
  | null
  | bool (b : Bool)
  | num (n : Number)
  | str (s : String)
  | arr (items : List Value)
  | obj (entries : List (String × Value))
  deriving Inhabited

namespace Value

def emptyObj : Value := .obj []

def emptyArr : Value := .arr []

/-! ### Equality -/

mutual

def decEq : (a b : Value) → Decidable (a = b)
  | .null, .null => isTrue rfl
  | .bool a, .bool b => if h : a = b then isTrue (h ▸ rfl) else isFalse (by simp [h])
  | .num a, .num b => if h : a = b then isTrue (h ▸ rfl) else isFalse (by simp [h])
  | .str a, .str b => if h : a = b then isTrue (h ▸ rfl) else isFalse (by simp [h])
  | .arr a, .arr b =>
    match decEqL a b with
    | isTrue h => isTrue (h ▸ rfl)
    | isFalse h => isFalse (by simp [h])
  | .obj a, .obj b =>
    match decEqE a b with
    | isTrue h => isTrue (h ▸ rfl)
    | isFalse h => isFalse (by simp [h])
  | .null, .bool _ | .null, .num _ | .null, .str _ | .null, .arr _ | .null, .obj _
  | .bool _, .null | .bool _, .num _ | .bool _, .str _ | .bool _, .arr _ | .bool _, .obj _
  | .num _, .null | .num _, .bool _ | .num _, .str _ | .num _, .arr _ | .num _, .obj _
  | .str _, .null | .str _, .bool _ | .str _, .num _ | .str _, .arr _ | .str _, .obj _
  | .arr _, .null | .arr _, .bool _ | .arr _, .num _ | .arr _, .str _ | .arr _, .obj _
  | .obj _, .null | .obj _, .bool _ | .obj _, .num _ | .obj _, .str _ | .obj _, .arr _ =>
    isFalse (by simp)

def decEqL : (a b : List Value) → Decidable (a = b)
  | [], [] => isTrue rfl
  | [], _ :: _ | _ :: _, [] => isFalse (by simp)
  | x :: xs, y :: ys =>
    match decEq x y with
    | isFalse h => isFalse (by simp [h])
    | isTrue h =>
      match decEqL xs ys with
      | isTrue h' => isTrue (by rw [h, h'])
      | isFalse h' => isFalse (by simp [h'])

def decEqE : (a b : List (String × Value)) → Decidable (a = b)
  | [], [] => isTrue rfl
  | [], _ :: _ | _ :: _, [] => isFalse (by simp)
  | (k, x) :: xs, (l, y) :: ys =>
    if hk : k = l then
      match decEq x y with
      | isFalse h => isFalse (by simp [h])
      | isTrue h =>
        match decEqE xs ys with
        | isTrue h' => isTrue (by rw [hk, h, h'])
        | isFalse h' => isFalse (by simp [h'])
    else isFalse (by simp [hk])

end

instance : DecidableEq Value := decEq

/-! ### Key order -/

mutual

/-- All objects in a value have their keys in increasing order. -/
def Ordered : Value → Prop
  | .arr items => OrderedL items
  | .obj entries => Entries.Sorted entries ∧ OrderedE entries
  | _ => True

def OrderedL : List Value → Prop
  | [] => True
  | v :: vs => Ordered v ∧ OrderedL vs

def OrderedE : List (String × Value) → Prop
  | [] => True
  | (_, v) :: es => Ordered v ∧ OrderedE es

end

theorem orderedL_iff {vs : List Value} : OrderedL vs ↔ ∀ v ∈ vs, Ordered v := by
  induction vs with
  | nil => simp [OrderedL]
  | cons v vs ih => simp [OrderedL, ih]

theorem orderedE_iff {es : List (String × Value)} : OrderedE es ↔ ∀ e ∈ es, Ordered e.2 := by
  induction es with
  | nil => simp [OrderedE]
  | cons e es ih => simp [OrderedE, ih]

@[simp] theorem ordered_arr {items : List Value} :
    Ordered (.arr items) ↔ ∀ v ∈ items, Ordered v := by rw [Ordered, orderedL_iff]

@[simp] theorem ordered_obj {entries : List (String × Value)} :
    Ordered (.obj entries) ↔ Entries.Sorted entries ∧ ∀ e ∈ entries, Ordered e.2 := by
  rw [Ordered, orderedE_iff]

mutual

/-- The ordered value of a text. -/
def canonical : Value → Value
  | .arr items => .arr (canonicalL items)
  | .obj entries => .obj (canonicalE entries)
  | v => v

def canonicalL : List Value → List Value
  | [] => []
  | v :: vs => canonical v :: canonicalL vs

/-- The ordered entries of an object: an entry counts unless its key comes again. -/
def canonicalE : List (String × Value) → List (String × Value)
  | [] => []
  | (k, v) :: es =>
    let rest := canonicalE es
    if (Entries.get? k rest).isSome then rest else Entries.put k (canonical v) rest

end

mutual

theorem ordered_canonical : (v : Value) → Ordered (canonical v)
  | .null | .bool _ | .num _ | .str _ => by simp [canonical, Ordered]
  | .arr items => by rw [canonical, Ordered]; exact orderedL_canonicalL items
  | .obj entries => by rw [canonical, Ordered]; exact ordered_canonicalE entries

theorem orderedL_canonicalL : (vs : List Value) → OrderedL (canonicalL vs)
  | [] => trivial
  | v :: vs => ⟨ordered_canonical v, orderedL_canonicalL vs⟩

theorem ordered_canonicalE :
    (es : List (String × Value)) → Entries.Sorted (canonicalE es) ∧ OrderedE (canonicalE es)
  | [] => ⟨Entries.sorted_nil, trivial⟩
  | (k, v) :: es => by
    have ih := ordered_canonicalE es
    rw [canonicalE]
    split
    · exact ih
    · refine ⟨Entries.sorted_put ih.1, orderedE_iff.2 fun e he => ?_⟩
      rcases Entries.mem_put he with rfl | he
      · exact ordered_canonical v
      · exact orderedE_iff.1 ih.2 e he

end

end Value

/-- A document: a value whose objects have their keys in increasing order. -/
structure Document where
  root : Value
  ordered : root.Ordered

namespace Document

instance : CoeOut Document Value := ⟨root⟩

/-- The document of a value: its objects put in order. -/
def ofValue (v : Value) : Document := ⟨v.canonical, v.ordered_canonical⟩

end Document

namespace Value

/-! ### Nesting -/

mutual

/-- How many containers lie around the innermost place of a value. -/
def nesting : Value → Nat
  | .arr items => nestingL items + 1
  | .obj entries => nestingE entries + 1
  | _ => 0

def nestingL : List Value → Nat
  | [] => 0
  | v :: vs => max (nesting v) (nestingL vs)

def nestingE : List (String × Value) → Nat
  | [] => 0
  | (_, v) :: es => max (nesting v) (nestingE es)

end

end Value

end Excerpt.Json
