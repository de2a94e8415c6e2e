import Excerpt.Projection.Positions
import Excerpt.Proofs.Lockstep
import Excerpt.Proofs.CanonicalIndex

/-!
# Leaves below keys and indices

* `Node.leaves` — the scalars at a node and below it;
* `mem_leavesE`, `mem_leavesL` — leaves stand below an entry or below an element;
* `Node.cons_mem_leaves` — what stands below a key that is there stands in the child;
* `Projection.mem_leaves_of_inStep` — an output in step with its source has no leaves of its own.
-/

namespace Excerpt

open Json

namespace Json.Value

theorem mem_leavesE {entries : List (String × Value)} {p : Position} {x : Value} :
    (p, x) ∈ leavesE entries ↔
      ∃ key v q, (key, v) ∈ entries ∧ (q, x) ∈ leaves v ∧ p = key :: q := by
  induction entries with
  | nil => simp [leavesE]
  | cons e entries ih =>
    obtain ⟨k, w⟩ := e
    rw [leavesE, List.mem_append, List.mem_map, ih]
    constructor
    · rintro (⟨⟨q, y⟩, hq, heq⟩ | ⟨key, v, q, he, hq, hp⟩)
      · cases heq
        exact ⟨k, w, q, List.mem_cons_self, hq, rfl⟩
      · exact ⟨key, v, q, List.mem_cons_of_mem _ he, hq, hp⟩
    · rintro ⟨key, v, q, he, hq, rfl⟩
      rcases List.mem_cons.1 he with heq | he
      · cases heq
        exact .inl ⟨(q, x), hq, rfl⟩
      · exact .inr ⟨key, v, q, he, hq, rfl⟩

theorem mem_leavesL {items : List Value} {n : Nat} {p : Position} {x : Value} :
    (p, x) ∈ leavesL n items ↔
      ∃ i v q, items[i]? = some v ∧ (q, x) ∈ leaves v ∧ p = toString (n + i) :: q := by
  induction items generalizing n with
  | nil => simp [leavesL]
  | cons w items ih =>
    rw [leavesL, List.mem_append, List.mem_map, ih]
    constructor
    · rintro (⟨⟨q, y⟩, hq, heq⟩ | ⟨i, v, q, hi, hq, rfl⟩)
      · cases heq
        exact ⟨0, w, q, rfl, hq, rfl⟩
      · exact ⟨i + 1, v, q, hi, hq, by rw [Nat.add_right_comm, Nat.add_assoc]⟩
    · rintro ⟨i, v, q, hi, hq, rfl⟩
      cases i with
      | zero =>
        cases hi
        exact .inl ⟨(q, x), hq, rfl⟩
      | succ i => exact .inr ⟨i, v, q, hi, hq, by rw [Nat.add_right_comm, Nat.add_assoc]⟩

theorem cons_mem_leavesE {entries : Entries Value} (hs : Entries.Sorted entries) {key : String}
    {p : Position} {x : Value} :
    (key :: p, x) ∈ leavesE entries ↔
      ∃ v, Entries.get? key entries = some v ∧ (p, x) ∈ leaves v := by
  rw [mem_leavesE]
  constructor
  · rintro ⟨k, v, q, he, hq, heq⟩
    cases heq
    exact ⟨v, Entries.get?_of_mem hs he, hq⟩
  · rintro ⟨v, hv, hp⟩
    exact ⟨key, v, p, Entries.mem_of_get? hv, hp, rfl⟩

theorem cons_mem_leavesL {items : List Value} {i : Nat} {p : Position} {x : Value} :
    (toString i :: p, x) ∈ leavesL 0 items ↔ ∃ v, items[i]? = some v ∧ (p, x) ∈ leaves v := by
  rw [mem_leavesL]
  constructor
  · rintro ⟨j, v, q, hj, hq, heq⟩
    obtain ⟨hij, rfl⟩ := List.cons.inj heq
    rw [Nat.zero_add] at hij
    rw [Text.Numeral.index_eq_of_toString_eq hij]
    exact ⟨v, hj, hq⟩
  · rintro ⟨v, hv, hp⟩
    exact ⟨i, v, p, hv, hp, by rw [Nat.zero_add]⟩

end Json.Value

open Json.Value

/-- The scalars at a node and below it, with their positions. -/
def Node.leaves : Node → List (Position × Value)
  | .missing => []
  | .scalar v => [([], v)]
  | .mapping entries => leavesE entries
  | .sequence items => leavesL 0 items

namespace Node

theorem leaves_of (v : Value) : (Node.of v).leaves = v.leaves := by
  cases v with
  | arr items => rw [Value.leaves]; rfl
  | obj entries => rw [Value.leaves]; rfl
  | null | bool | num | str => simp [of, leaves, Value.leaves]

theorem leaves_ofOption {v? : Option Value} {l : Position × Value} :
    l ∈ (ofOption v?).leaves ↔ ∃ v, v? = some v ∧ l ∈ v.leaves := by
  cases v? with
  | none => simp [ofOption, leaves]
  | some v => simp [ofOption, leaves_of]

theorem cons_mem_leaves_of_child {node : Node} (hn : node.Ordered) {key : String} {p : Position}
    {x : Value} (h : (p, x) ∈ (node.child key).leaves) : (key :: p, x) ∈ node.leaves := by
  cases node with
  | missing => exact absurd h List.not_mem_nil
  | scalar v => exact absurd h List.not_mem_nil
  | mapping entries =>
    rw [child, leaves_ofOption] at h
    exact (cons_mem_leavesE (ordered_obj.1 (hn _ rfl)).1).2 h
  | sequence items =>
    rw [child, leaves_ofOption] at h
    obtain ⟨v, hv, hp⟩ := h
    obtain ⟨i, hi, hv⟩ := Option.bind_eq_some_iff.1 hv
    rw [← Text.Numeral.toString_of_ofCanonical? hi]
    exact cons_mem_leavesL.2 ⟨v, hv, hp⟩

/-- Below a key that is there, a node has what its child has. -/
theorem cons_mem_leaves {node : Node} (hn : node.Ordered) {key : String}
    (hk : (node.child key).isMissing = false) {p : Position} {x : Value} :
    (key :: p, x) ∈ node.leaves ↔ (p, x) ∈ (node.child key).leaves := by
  refine ⟨fun h => ?_, cons_mem_leaves_of_child hn⟩
  cases node with
  | missing => simp [isMissing] at hk
  | scalar v => simp [isMissing] at hk
  | mapping entries =>
    rw [child, leaves_ofOption]
    exact (cons_mem_leavesE (ordered_obj.1 (hn _ rfl)).1).1 h
  | sequence items =>
    rw [child] at hk ⊢
    cases hc : (Text.Numeral.ofCanonical? key).bind fun i => items[i]? with
    | none => simp [hc, ofOption, isMissing] at hk
    | some v =>
      obtain ⟨i, hi, hv⟩ := Option.bind_eq_some_iff.1 hc
      rw [← Text.Numeral.toString_of_ofCanonical? hi] at h
      obtain ⟨w, hw, hp⟩ := cons_mem_leavesL.1 h
      rw [hv] at hw
      cases hw
      exact leaves_ofOption.2 ⟨v, rfl, hp⟩

end Node

namespace Projection

mutual

/-- **An output in step has no leaves of its own.** -/
theorem mem_leaves_of_inStep {node : Node} (hn : node.Ordered) :
    (v : Value) → InStep node v → ∀ l ∈ v.leaves, l ∈ node.leaves
  | .obj entries, h, l, hl => by
    rw [Value.leaves] at hl
    exact mem_leaves_of_inStepE hn entries (inStep_obj.1 h).2.2 l hl
  | .arr branches, h, l, hl => by
    obtain ⟨items, rfl, hb⟩ := inStep_arr.1 h
    rw [Value.leaves] at hl
    exact mem_leaves_of_inStepL 0 (ordered_arr.1 (hn _ rfl)) branches hb l hl
  | .null, h, l, hl | .bool _, h, l, hl | .num _, h, l, hl | .str _, h, l, hl => by
    obtain rfl := (inStep_of_not_container (by simp) (by simp)).1 h
    simpa [Value.leaves, Node.leaves] using hl

theorem mem_leaves_of_inStepItem {item : Value} (hi : item.Ordered) :
    (v : Value) → InStepItem item v → ∀ l ∈ v.leaves, l ∈ item.leaves
  | .obj entries, h, l, hl => by
    rw [Value.leaves] at hl
    rw [← Node.leaves_of]
    exact mem_leaves_of_inStepE (Node.ordered_of hi) entries (inStepItem_obj.1 h).2 l hl
  | .null, h, l, hl | .bool _, h, l, hl | .num _, h, l, hl | .str _, h, l, hl
  | .arr _, h, l, hl => by
    have heq := (inStepItem_of_not_obj (by simp)).1 h
    rwa [← heq]

theorem mem_leaves_of_inStepL (n : Nat) {items : List Value} (hi : ∀ item ∈ items, item.Ordered) :
    (vs : List Value) → InStepL items vs → ∀ l ∈ leavesL n vs, l ∈ leavesL n items
  | [], _, _, hl => by simp [leavesL] at hl
  | v :: vs, h, l, hl => by
    cases items with
    | nil => simp [InStepL] at h
    | cons item items =>
      rw [InStepL] at h
      have hitem := List.forall_mem_cons.1 hi
      rw [leavesL, List.mem_append, List.mem_map] at hl ⊢
      rcases hl with ⟨m, hm, rfl⟩ | hl
      · exact .inl ⟨m, mem_leaves_of_inStepItem hitem.1 v h.1 m hm, rfl⟩
      · exact .inr (mem_leaves_of_inStepL (n + 1) hitem.2 vs h.2 l hl)

theorem mem_leaves_of_inStepE {node : Node} (hn : node.Ordered) :
    (es : List (String × Value)) → InStepE node es → ∀ l ∈ leavesE es, l ∈ node.leaves
  | [], _, _, hl => by simp [leavesE] at hl
  | (key, v) :: es, h, l, hl => by
    rw [InStepE] at h
    rw [leavesE, List.mem_append, List.mem_map] at hl
    rcases hl with ⟨⟨p, x⟩, hm, rfl⟩ | hl
    · have hm := mem_leaves_of_inStep (hn.child key) v h.1 (p, x) hm
      exact Node.cons_mem_leaves_of_child hn hm
    · exact mem_leaves_of_inStepE hn es h.2 l hl

end

end Projection

end Excerpt
