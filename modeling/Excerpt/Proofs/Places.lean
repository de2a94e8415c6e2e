import Excerpt.Proofs.Lockstep
import Excerpt.Proofs.Padding

/-!
# Places of an output and of its source

A place of an output is found by keys of objects and indices of arrays. The same keys and indices
lead to a node of the source, and the node says what may stand in the output.

* `Leg` — a key or an index; `Value.follow?` and `Node.follow` go along a list of them;
* `Node.Permits` — what a slot may hold, by the node of the source at its place;
* `Facing` — a value of an output, slot or element, is in step with the node at its place;
* `Facing.along`, `Facing.follow` — so is everything below it;
* `permits_of_follow?` — what stands below a key of an excerpt is permitted there.
-/

namespace Excerpt

open Json Json.Value

/-- One leg of a way: below a key, or at an index. -/
inductive Leg where
  | key (k : String)
  | index (i : Nat)
  deriving DecidableEq, Repr

/-- The value one leg further: an object has its keys, and an array its indices. -/
def Json.Value.along? : Value → Leg → Option Value
  | .obj entries, .key k => Entries.get? k entries
  | .arr items, .index i => items[i]?
  | _, _ => none

def Json.Value.follow? (v : Value) (way : List Leg) : Option Value := way.foldlM along? v

namespace Node

/-- The node one leg further: a key leads to the child, an index to the element of a sequence. -/
def along : Node → Leg → Node
  | node, .key k => node.child k
  | .sequence items, .index i => ofOption items[i]?
  | _, .index _ => .missing

def follow (node : Node) (way : List Leg) : Node := way.foldl along node

/-- What may stand in the slot of an output, by the node of the source at its place. -/
def Permits : Node → Value → Prop
  | .sequence items, slot => ∃ branches, slot = .arr branches ∧ branches.length = items.length
  | .mapping _, slot => ∃ entries, slot = .obj entries
  | .scalar v, slot => slot = v ∨ slot.Hollow
  | .missing, slot => slot.Hollow

end Node

namespace Projection

/-! ### What is in step is permitted -/

mutual

theorem hollow_of_inStep_missing : (v : Value) → InStep .missing v → v.Hollow
  | .obj entries, h => hollowE_of_inStepE (fun _ => rfl) entries (inStep_obj.1 h).2.2
  | .arr branches, h => by
    obtain ⟨items, hnode, -⟩ := inStep_arr.1 h
    cases hnode
  | .null, h | .bool _, h | .num _, h | .str _, h => by
    have hnode := (inStep_of_not_container (by simp) (by simp)).1 h
    cases hnode

/-- Below a node without children, an output has objects of objects. -/
theorem hollowE_of_inStepE {node : Node} (hn : ∀ key, node.child key = .missing) :
    (entries : List (String × Value)) → InStepE node entries → HollowE entries
  | [], _ => trivial
  | (key, v) :: entries, h => by
    rw [InStepE, hn key] at h
    exact ⟨hollow_of_inStep_missing v h.1, hollowE_of_inStepE hn entries h.2⟩

end

theorem InStepL.length_eq {items branches : List Value} (h : InStepL items branches) :
    branches.length = items.length := by
  induction items generalizing branches with
  | nil =>
    cases branches with
    | nil => rfl
    | cons branch branches => simp [InStepL] at h
  | cons item items ih =>
    cases branches with
    | nil => simp [InStepL] at h
    | cons branch branches =>
      rw [InStepL] at h
      rw [List.length_cons, List.length_cons, ih h.2]

/-- **A slot in step with the source is permitted by it.** -/
theorem permits_of_inStep {node : Node} {slot : Value} (h : InStep node slot) :
    node.Permits slot := by
  cases node with
  | sequence items =>
    rcases Enterable.cases (.inl h) with ⟨items', branches, hnode, rfl, -⟩ | ⟨hq, -⟩ | ⟨hnode, -⟩
    · cases hnode
      obtain ⟨_, hnode, hb⟩ := inStep_arr.1 h
      cases hnode
      exact ⟨branches, rfl, hb.length_eq⟩
    · cases hq
    · cases hnode
  | mapping entries =>
    rcases Enterable.cases (.inl h) with ⟨_, _, hnode, -⟩ | ⟨-, es, rfl, -⟩ | ⟨hnode, -⟩
    · cases hnode
    · exact ⟨es, rfl⟩
    · cases hnode
  | scalar v =>
    rcases Enterable.cases (.inl h) with ⟨_, _, hnode, -⟩ | ⟨-, es, rfl, -, he⟩ | ⟨hnode, -⟩
    · cases hnode
    · exact .inr (hollowE_of_inStepE (fun _ => rfl) es he)
    · cases hnode
      exact .inl rfl
  | missing => exact hollow_of_inStep_missing slot h

/-! ### Along a way -/

/-- A value of an output faces a node of the source: as a slot it is in step with the node, and as
an element of an array with the item that the node is of. -/
structure Facing (node : Node) (v : Value) : Prop where
  ordered : node.Ordered
  inStep : InStep node v ∨ ∃ item, node = .of item ∧ InStepItem item v

/-- Below a key of an object, a slot is in step with the child. -/
theorem Facing.key {node : Node} {entries : Entries Value} (h : Facing node (.obj entries))
    {k : String} {v : Value} (hv : Entries.get? k entries = some v) : InStep (node.child k) v := by
  have hentries : InStepE node entries := by
    rcases h.inStep with hslot | ⟨item, rfl, hitem⟩
    · exact (inStep_obj.1 hslot).2.2
    · exact (inStepItem_obj.1 hitem).2
  exact inStepE_iff.1 hentries _ (Entries.mem_of_get? hv)

/-- At an index of an array, an element is in step with the item. -/
theorem Facing.index {node : Node} {branches : List Value} (h : Facing node (.arr branches))
    {i : Nat} {v : Value} (hv : branches[i]? = some v) :
    ∃ items item, node = .sequence items ∧ items[i]? = some item ∧ InStepItem item v := by
  rcases h.inStep with hslot | ⟨item, rfl, hitem⟩
  · obtain ⟨items, rfl, hb⟩ := inStep_arr.1 hslot
    obtain ⟨item, hi, hitem⟩ := getElem?_of_inStepL hb hv
    exact ⟨items, item, rfl, hi, hitem⟩
  · -- an array inside an array is a copy
    obtain rfl := (inStepItem_of_not_obj (by simp)).1 hitem
    have hitems := Value.ordered_arr.1 (h.ordered _ (Node.value?_of _))
    have hself := inStep_of v (hitems v (List.mem_of_getElem? hv))
    exact ⟨branches, v, rfl, hv, inStepItem_of_inStep hself⟩

/-- **One leg further, values still face each other.** -/
theorem Facing.along {node : Node} {v w : Value} (h : Facing node v) {leg : Leg}
    (hw : v.along? leg = some w) : Facing (node.along leg) w := by
  cases leg with
  | key k =>
    cases v with
    | obj entries => exact ⟨h.ordered.child k, .inl (h.key hw)⟩
    | null | bool | num | str | arr => cases hw
  | index i =>
    cases v with
    | arr branches =>
      obtain ⟨items, item, rfl, hi, hitem⟩ := h.index hw
      have hitems := Value.ordered_arr.1 (h.ordered _ rfl)
      have hnode : (Node.sequence items).along (.index i) = .of item := by
        rw [Node.along, hi]
        rfl
      rw [hnode]
      exact ⟨Node.ordered_of (hitems item (List.mem_of_getElem? hi)), .inr ⟨item, rfl, hitem⟩⟩
    | null | bool | num | str | obj => cases hw

/-- **Along every way, values face each other.** -/
theorem Facing.follow {node : Node} {v w : Value} (h : Facing node v) {way : List Leg}
    (hw : v.follow? way = some w) : Facing (node.follow way) w := by
  induction way generalizing node v with
  | nil =>
    cases hw
    exact h
  | cons leg way ih =>
    rw [Value.follow?, List.foldlM_cons] at hw
    obtain ⟨u, hu, hw⟩ := Option.bind_eq_some_iff.1 hw
    exact ih (h.along hu) hw

theorem facing_excerpt (ss : List Selection) (d : Document) :
    Facing (.of d) (KeySpec.apply ⟨ss⟩ d) := by
  have hn : (Node.of d.root).Ordered := Node.ordered_of d.ordered
  have hsorted : Entries.Sorted (ss.foldl (select (.of d.root)) []) :=
    sorted_foldl_select ss Entries.sorted_nil
  have hstep : InStepE (.of d.root) (ss.foldl (select (.of d.root)) []) :=
    inStepE_foldl_select hn (inStepE_iff.2 (by simp)) ss
  exact ⟨hn, .inr ⟨d, rfl, inStepItem_obj.2 ⟨hsorted, hstep⟩⟩⟩

/-- What stands below a key of an excerpt is permitted by the node of the source at its place. -/
theorem permits_of_follow? (ss : List Selection) (d : Document) {way : List Leg} {k : String}
    {slot : Value}
    (h : (KeySpec.apply ⟨ss⟩ d).follow? (way ++ [.key k]) = some slot) :
    ((Node.of d.root).follow (way ++ [.key k])).Permits slot := by
  rw [Value.follow?, List.foldlM_append] at h
  obtain ⟨v, hv, hslot⟩ := Option.bind_eq_some_iff.1 h
  rw [List.foldlM_cons] at hslot
  obtain ⟨w, hw, hend⟩ := Option.bind_eq_some_iff.1 hslot
  cases hend
  have hface : Facing ((Node.of d.root).follow way) v := (facing_excerpt ss d).follow hv
  have hfollow : (Node.of d.root).follow (way ++ [.key k]) =
      ((Node.of d.root).follow way).child k := by
    rw [Node.follow, List.foldl_append]
    rfl
  rw [hfollow]
  cases v with
  | obj entries => exact permits_of_inStep (hface.key hw)
  | null | bool | num | str | arr => cases hw

end Projection

end Excerpt
