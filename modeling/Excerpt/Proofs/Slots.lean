import Excerpt.Projection
import Mathlib.Data.List.Forall2

/-!
# Selections seen through the slots of an output

Below each key of an output stands one slot. A selection changes the slot of its first key alone,
and what it does there depends on the child of the source below that key.

* `Demand` — what a selection asks of a slot: to take the value, or to enter it;
* `meet`, `enter` — what becomes of a slot;
* `get?_select`, `get?_foldl_select` — one selection, and many, seen through the slots;
* `foldl_enter_obj`, `foldl_enter_arr` — many selections that enter one slot.
-/

namespace Excerpt

open Json

namespace Node

theorem child_eq_ofOption (node : Node) (key : String) :
    node.child key = ofOption (node.child key).value? := by
  cases node with
  | missing => rfl
  | scalar v => rfl
  | mapping entries => rw [child, value?_ofOption]
  | sequence items => rw [child, value?_ofOption]

theorem exists_items (node : Node) (h : node.isSequence = true) :
    ∃ items, node = .sequence items := by
  cases node with
  | sequence items => exact ⟨items, rfl⟩
  | missing | scalar | mapping => simp [isSequence] at h

theorem emptySlot_of_not_sequence {node : Node} (h : node.isSequence = false) :
    node.emptySlot = .emptyObj := by
  cases node with
  | sequence items => simp [isSequence] at h
  | missing | scalar | mapping => rfl

/-- All values in a node have their keys in order. -/
def Ordered (node : Node) : Prop := ∀ v, node.value? = some v → v.Ordered

theorem ordered_of {v : Value} (h : v.Ordered) : (Node.of v).Ordered := by
  intro w hw
  rw [value?_of] at hw
  cases hw
  exact h

theorem Ordered.child {node : Node} (h : node.Ordered) (key : String) :
    (node.child key).Ordered := by
  intro v hv
  cases node with
  | missing => simp [value?] at hv
  | scalar w => simp [value?] at hv
  | mapping entries =>
    have hes := Value.ordered_obj.1 (h _ rfl)
    rw [Node.child, value?_ofOption] at hv
    exact hes.2 _ (Entries.mem_of_get? hv)
  | sequence items =>
    have hitems := Value.ordered_arr.1 (h _ rfl)
    rw [Node.child, value?_ofOption] at hv
    obtain ⟨i, -, hi⟩ := Option.bind_eq_some_iff.1 hv
    exact hitems _ (List.mem_of_getElem? hi)

end Node

namespace Projection

/-- What a selection asks of the slot of its first key. -/
inductive Demand where
  /-- The value is wanted. -/
  | take
  /-- A value below is wanted. -/
  | enter (s : Selection)

end Projection

namespace Selection

open Projection

def first (s : Selection) : String :=
  match s.trajectory with
  | [] => s.key
  | step :: _ => step

/-- What a selection asks below its first key. -/
def demand (s : Selection) : Demand :=
  match s.trajectory with
  | [] => .take
  | _ :: rest => .enter ⟨rest, s.key⟩

end Selection

namespace Projection

/-- Change the entries of an object; leave every other value alone. -/
def within (f : Entries Value → Entries Value) : Value → Value
  | .obj entries => .obj (f entries)
  | v => v

/-- Change a branch for every item, in step. -/
def fanOut (f : Value → Value → Value) : List Value → List Value → List Value
  | [], branches => branches
  | item :: items, [] => f item .emptyObj :: fanOut f items []
  | item :: items, branch :: branches => f item branch :: fanOut f items branches

theorem fst_descend (f : Entries Value → Entries Value × List Skip) (skip : Skip) (v : Value) :
    (descend f skip v).1 = within (fun entries => (f entries).1) v := by
  cases v <;> rfl

theorem fst_descendAll {f : Nat → Value → Value → Value × List Skip} {g : Value → Value → Value}
    (h : ∀ i item branch, (f i item branch).1 = g item branch) (i : Nat)
    (items branches : List Value) : (descendAll f i items branches).1 = fanOut g items branches := by
  induction items generalizing i branches with
  | nil => rfl
  | cons item items ih => cases branches <;> simp [descendAll, fanOut, h, ih]

/-- Project a selection into a slot; the source has `child` at its place. -/
def enter (child : Node) (slot : Value) (s : Selection) : Value :=
  match child, slot with
  | .sequence items, .arr branches =>
    .arr (fanOut (fun item => within fun output => select (.of item) output s) items branches)
  | .sequence _, other => other
  | child, other => within (fun output => select child output s) other

/-- What becomes of a slot that may not be there yet. -/
def meet (child : Node) (slot : Option Value) : Demand → Option Value
  | .take => child.value?.or slot
  | .enter s => some (enter child (slot.getD child.emptySlot) s)

/-- What selections ask below a key, in order. -/
def demands (key : String) (ss : List Selection) : List Demand :=
  ss.filterMap fun s => if s.first = key then some s.demand else none

theorem demands_cons (key : String) (s : Selection) (ss : List Selection) :
    demands key (s :: ss) =
      if s.first = key then s.demand :: demands key ss else demands key ss := by
  by_cases hk : s.first = key <;> simp [demands, hk]

theorem project_cons (step : String) (rest : List String) (key : String) (source : Node)
    (output : Entries Value) :
    project (step :: rest) key source output =
      Entries.put step (enter (source.child step)
        (slot (source.child step) step output) ⟨rest, key⟩) output := by
  rw [project, pass]
  refine congrArg (Entries.put step · output) ?_
  generalize source.child step = child
  generalize slot child step output = slot
  cases child with
  | sequence items =>
    cases slot with
    | arr branches => exact congrArg Value.arr (fst_descendAll (fun _ _ _ => fst_descend ..) ..)
    | null | bool | num | str | obj => rfl
  | missing | scalar | mapping => exact fst_descend ..

/-- **One selection seen through the slots.** It changes the slot of its first key alone. -/
theorem get?_select (source : Node) (output : Entries Value) (s : Selection) (key : String) :
    Entries.get? key (select source output s) =
      if key = s.first then meet (source.child key) (Entries.get? key output) s.demand
      else Entries.get? key output := by
  obtain ⟨trajectory, terminal⟩ := s
  cases trajectory with
  | nil =>
    show Entries.get? key (project [] terminal source output) =
      if key = terminal then (source.child key).value?.or (Entries.get? key output)
      else Entries.get? key output
    rw [project_nil]
    by_cases hk : key = terminal
    · subst hk
      cases hv : (source.child key).value? with
      | none => simp
      | some v => simp
    · cases hv : (source.child terminal).value? with
      | none => simp [hk]
      | some v => simp [hk, Entries.get?_put_of_ne]
  | cons step rest =>
    show Entries.get? key (project (step :: rest) terminal source output) =
      if key = step then meet (source.child key) (Entries.get? key output) (.enter ⟨rest, terminal⟩)
      else Entries.get? key output
    rw [project_cons, Entries.get?_put]
    by_cases hk : key = step
    · subst hk
      rw [if_pos rfl, if_pos rfl]
      rfl
    · rw [if_neg hk, if_neg hk]

theorem sorted_select {source : Node} {output : Entries Value} (s : Selection)
    (h : Entries.Sorted output) : Entries.Sorted (select source output s) := by
  obtain ⟨trajectory, terminal⟩ := s
  cases trajectory with
  | nil =>
    simp only [select, project_nil]
    split
    · exact Entries.sorted_put h
    · exact h
  | cons step rest =>
    rw [select, project_cons]
    exact Entries.sorted_put h

theorem sorted_foldl_select {source : Node} {output : Entries Value} (ss : List Selection)
    (h : Entries.Sorted output) : Entries.Sorted (ss.foldl (select source) output) := by
  induction ss generalizing output with
  | nil => exact h
  | cons s ss ih => exact ih (sorted_select s h)

/-- **Many selections seen through the slots.** -/
theorem get?_foldl_select (source : Node) (output : Entries Value) (ss : List Selection)
    (key : String) :
    Entries.get? key (ss.foldl (select source) output) =
      (demands key ss).foldl (meet (source.child key)) (Entries.get? key output) := by
  induction ss generalizing output with
  | nil => rfl
  | cons s ss ih =>
    rw [List.foldl_cons, ih, get?_select, demands_cons]
    by_cases hk : s.first = key
    · rw [if_pos hk.symm, if_pos hk, List.foldl_cons]
    · rw [if_neg (Ne.symm hk), if_neg hk]

/-! ### Entering a slot -/

theorem enter_of_not_sequence {child : Node} (h : child.isSequence = false) (slot : Value)
    (s : Selection) :
    enter child slot s = within (fun output => select child output s) slot := by
  cases child with
  | sequence items => simp [Node.isSequence] at h
  | missing | scalar | mapping => rfl

theorem enter_obj {child : Node} (h : child.isSequence = false) (entries : Entries Value)
    (s : Selection) : enter child (.obj entries) s = .obj (select child entries s) := by
  rw [enter_of_not_sequence h]
  rfl

theorem enter_of_not_container {child : Node} {slot : Value} (ho : ∀ entries, slot ≠ .obj entries)
    (ha : ∀ branches, slot ≠ .arr branches) (s : Selection) : enter child slot s = slot := by
  cases slot with
  | obj entries => exact absurd rfl (ho entries)
  | arr branches => exact absurd rfl (ha branches)
  | null | bool | num | str => cases child <;> rfl

theorem foldl_enter_obj {child : Node} (h : child.isSequence = false) (entries : Entries Value)
    (ss : List Selection) :
    ss.foldl (enter child) (.obj entries) = .obj (ss.foldl (select child) entries) := by
  induction ss generalizing entries with
  | nil => rfl
  | cons s ss ih => rw [List.foldl_cons, List.foldl_cons, enter_obj h, ih]

theorem foldl_enter_emptySlot {child : Node} (h : child.isSequence = false) (ss : List Selection) :
    ss.foldl (enter child) child.emptySlot = .obj (ss.foldl (select child) []) := by
  rw [Node.emptySlot_of_not_sequence h]
  exact foldl_enter_obj h [] ss

theorem foldl_enter_of_not_container {child : Node} {slot : Value}
    (ho : ∀ entries, slot ≠ .obj entries) (ha : ∀ branches, slot ≠ .arr branches)
    (ss : List Selection) : ss.foldl (enter child) slot = slot := by
  induction ss with
  | nil => rfl
  | cons s ss ih => rw [List.foldl_cons, enter_of_not_container ho ha, ih]

theorem within_within (f g : Entries Value → Entries Value) (v : Value) :
    within g (within f v) = within (fun es => g (f es)) v := by
  cases v <;> rfl

theorem getElem?_fanOut (f : Value → Value → Value) (items branches : List Value) (i : Nat) :
    (fanOut f items branches)[i]? =
      match items[i]? with
      | some item => some (f item (branches[i]?.getD .emptyObj))
      | none => branches[i]? := by
  induction items generalizing branches i with
  | nil => rfl
  | cons item items ih =>
    cases branches <;> cases i <;> simp [fanOut, ih]

theorem fanOut_fanOut (f g : Value → Value → Value) (items branches : List Value) :
    fanOut g items (fanOut f items branches) =
      fanOut (fun item v => g item (f item v)) items branches := by
  induction items generalizing branches with
  | nil => rfl
  | cons item items ih => cases branches <;> simp [fanOut, ih]

theorem fanOut_nil (f : Value → Value → Value) (items : List Value) :
    fanOut f items [] = items.map fun item => f item .emptyObj := by
  induction items with
  | nil => rfl
  | cons item items ih => simp [fanOut, ih]

theorem fanOut_self (f : Value → Value → Value) (items : List Value) :
    fanOut f items items = items.map fun item => f item item := by
  induction items with
  | nil => rfl
  | cons item items ih => simp [fanOut, ih]

theorem fanOut_congr {f g : Value → Value → Value} {items items' : List Value}
    (h : List.Forall₂ (fun item item' => ∀ branch, f item branch = g item' branch) items items')
    (branches : List Value) : fanOut f items branches = fanOut g items' branches := by
  induction h generalizing branches with
  | nil => rfl
  | cons hitem _ ih =>
    cases branches with
    | nil => rw [fanOut, fanOut, hitem, ih]
    | cons branch branches => rw [fanOut, fanOut, hitem, ih]

/-- Selections that enter an array go through it once, each element by all of them. -/
theorem foldl_enter_arr (items branches : List Value) {ss : List Selection} (h : ss ≠ []) :
    ss.foldl (enter (.sequence items)) (.arr branches) =
      .arr (fanOut (fun item => within fun output => ss.foldl (select (.of item)) output)
        items branches) := by
  induction ss generalizing branches with
  | nil => exact absurd rfl h
  | cons s ss ih =>
    cases ss with
    | nil => rfl
    | cons s' ss =>
      rw [List.foldl_cons, enter, ih _ (by simp), fanOut_fanOut]
      simp only [within_within]
      rfl

end Projection

end Excerpt
