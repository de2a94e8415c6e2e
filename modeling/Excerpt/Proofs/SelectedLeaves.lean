import Excerpt.Proofs.Leaves

/-!
# The leaves of an excerpt

An excerpt has the leaves of its document that stand at or below a position some selection reaches.

* `Selects` — a selection asks for a leaf of a node;
* `selects_nil`, `selects_cons` — the leaves of a selection, by its trajectory;
* `mem_leavesE_select` — what one selection adds to the leaves of an output;
* `KeySpec.mem_leaves_apply` — what all selections of a specification leave.
-/

namespace Excerpt

open Json Json.Value

namespace Projection

/-- A selection asks for the leaf `x` of a node at the position `p`. -/
def Selects (node : Node) (s : Selection) (p : Position) (x : Value) : Prop :=
  (p, x) ∈ node.leaves ∧ ∃ q ∈ Node.reached s.trajectory s.key node, q <+: p

/-- A selection asks for a leaf below a slot. At a sequence an index comes first. -/
def SelectsBelow (child : Node) (s : Selection) (p : Position) (x : Value) : Prop :=
  match child with
  | .sequence items =>
    ∃ (i : Nat) (item : Value) (q : Position),
      items[i]? = some item ∧ Selects (.of item) s q x ∧ p = toString i :: q
  | child => Selects child s p x

theorem selectsBelow_of_not_sequence {child : Node} (h : child.isSequence = false) {s : Selection}
    {p : Position} {x : Value} : SelectsBelow child s p x ↔ Selects child s p x := by
  cases child with
  | sequence items => simp [Node.isSequence] at h
  | missing | scalar | mapping => rfl

theorem not_isMissing_of_mem_leaves {node : Node} {l : Position × Value} (h : l ∈ node.leaves) :
    node.isMissing = false := by
  cases node with
  | missing => exact absurd h List.not_mem_nil
  | scalar | mapping | sequence => rfl

theorem not_isMissing_of_reached {trajectory : List String} {key : String} {node : Node}
    {q : Position} (h : q ∈ Node.reached trajectory key node) : node.isMissing = false := by
  cases node with
  | missing => rw [Node.reached_missing] at h; exact absurd h List.not_mem_nil
  | scalar | mapping | sequence => rfl

theorem not_selects_scalar (v : Value) (s : Selection) (p : Position) (x : Value) :
    ¬ Selects (.scalar v) s p x := by
  rintro ⟨-, q, hq, -⟩
  obtain ⟨trajectory, key⟩ := s
  cases trajectory with
  | nil => simp [Node.reached, Node.isMissing] at hq
  | cons step rest => simp [Node.reached, Node.reached_missing] at hq

/-! ### Leaves by the trajectory -/

theorem selects_nil {node : Node} (hn : node.Ordered) {key : String} {p : Position} {x : Value} :
    Selects node ⟨[], key⟩ p x ↔ ∃ q, p = key :: q ∧ (q, x) ∈ (node.child key).leaves := by
  constructor
  · rintro ⟨hp, q, hq, hpre⟩
    rw [Node.reached] at hq
    split at hq
    · exact absurd hq List.not_mem_nil
    · next hk =>
      obtain rfl := List.mem_singleton.1 hq
      obtain ⟨r, rfl⟩ := hpre
      exact ⟨r, rfl, (Node.cons_mem_leaves hn (Bool.eq_false_iff.2 hk)).1 hp⟩
  · rintro ⟨q, rfl, hq⟩
    have hk := not_isMissing_of_mem_leaves hq
    refine ⟨Node.cons_mem_leaves_of_child hn hq, [key], ?_, q, rfl⟩
    rw [Node.reached, hk]
    exact List.mem_singleton.2 rfl

theorem reached_cons_sequence {node : Node} {step : String} {items : List Value}
    (hc : node.child step = .sequence items) {rest : List String} {key : String} {q : Position} :
    q ∈ Node.reached (step :: rest) key node ↔
      ∃ (i : Nat) (item : Value) (r : Position), items[i]? = some item ∧
        r ∈ Node.reached rest key (.of item) ∧ q = step :: toString i :: r := by
  rw [Node.reached, hc]
  constructor
  · intro h
    obtain ⟨⟨item, i⟩, hi, hq⟩ := List.mem_flatMap.1 h
    obtain ⟨r, hr, rfl⟩ := List.mem_map.1 hq
    exact ⟨i, item, r, List.mem_zipIdx_iff_getElem?.1 hi, hr, rfl⟩
  · rintro ⟨i, item, r, hi, hr, rfl⟩
    exact List.mem_flatMap.2
      ⟨(item, i), List.mem_zipIdx_iff_getElem?.2 hi, List.mem_map.2 ⟨r, hr, rfl⟩⟩

theorem reached_cons_of_not_sequence {node : Node} {step : String}
    (hc : (node.child step).isSequence = false) {rest : List String} {key : String}
    {q : Position} :
    q ∈ Node.reached (step :: rest) key node ↔
      ∃ r ∈ Node.reached rest key (node.child step), q = step :: r := by
  rw [Node.reached]
  cases h : node.child step with
  | sequence items => simp [h, Node.isSequence] at hc
  | missing | scalar | mapping =>
    rw [List.mem_map]
    constructor
    · rintro ⟨r, hr, rfl⟩
      exact ⟨r, hr, rfl⟩
    · rintro ⟨r, hr, rfl⟩
      exact ⟨r, hr, rfl⟩

theorem selects_cons {node : Node} (hn : node.Ordered) {step : String} {rest : List String}
    {key : String} {p : Position} {x : Value} :
    Selects node ⟨step :: rest, key⟩ p x ↔
      ∃ q, p = step :: q ∧ SelectsBelow (node.child step) ⟨rest, key⟩ q x := by
  cases hq : (node.child step).isSequence with
  | true =>
    obtain ⟨items, hc⟩ := (node.child step).exists_items hq
    have hleaves : ∀ (i : Nat) (q : Position), (step :: toString i :: q, x) ∈ node.leaves ↔
        ∃ item, items[i]? = some item ∧ (q, x) ∈ (Node.of item).leaves := by
      intro i q
      rw [Node.cons_mem_leaves hn (by rw [hc]; rfl), hc]
      simp only [Node.leaves_of]
      exact cons_mem_leavesL
    rw [hc]
    constructor
    · rintro ⟨hp, q, hq, hpre⟩
      obtain ⟨i, item, r, hi, hr, rfl⟩ := (reached_cons_sequence hc).1 hq
      obtain ⟨t, rfl⟩ := hpre
      obtain ⟨item', hi', ht⟩ := (hleaves i (r ++ t)).1 hp
      rw [hi] at hi'
      cases hi'
      exact ⟨_, rfl, i, item, r ++ t, hi, ⟨ht, r, hr, t, rfl⟩, rfl⟩
    · rintro ⟨q, rfl, i, item, t, hi, ⟨ht, r, hr, hpre⟩, rfl⟩
      refine ⟨(hleaves i t).2 ⟨item, hi, ht⟩, step :: toString i :: r, ?_, ?_⟩
      · exact (reached_cons_sequence hc).2 ⟨i, item, r, hi, hr, rfl⟩
      · exact List.cons_prefix_cons.2 ⟨rfl, List.cons_prefix_cons.2 ⟨rfl, hpre⟩⟩
  | false =>
    constructor
    · rintro ⟨hp, q, hq', hpre⟩
      obtain ⟨r, hr, rfl⟩ := (reached_cons_of_not_sequence hq).1 hq'
      obtain ⟨t, rfl⟩ := hpre
      have ht := (Node.cons_mem_leaves hn (not_isMissing_of_reached hr)).1 hp
      exact ⟨r ++ t, rfl, (selectsBelow_of_not_sequence hq).2 ⟨ht, r, hr, t, rfl⟩⟩
    · rintro ⟨q, rfl, hs⟩
      obtain ⟨hx, r, hr, hpre⟩ := (selectsBelow_of_not_sequence hq).1 hs
      refine ⟨Node.cons_mem_leaves_of_child hn hx, step :: r, ?_, ?_⟩
      · exact (reached_cons_of_not_sequence hq).2 ⟨r, hr, rfl⟩
      · exact List.cons_prefix_cons.2 ⟨rfl, hpre⟩

/-! ### Leaves of an output -/

theorem not_mem_leaves_emptyObj (l : Position × Value) : l ∉ Value.emptyObj.leaves := by
  simp [emptyObj, Value.leaves, leavesE]

theorem not_mem_leaves_emptySlot (child : Node) (l : Position × Value) :
    l ∉ child.emptySlot.leaves := by
  cases child with
  | sequence items => simp [Node.emptySlot, emptyArr, Value.leaves, leavesL]
  | missing | scalar | mapping => exact not_mem_leaves_emptyObj l

/-- A value that keeps the leaves of the one it replaces adds its own. -/
theorem mem_leavesE_put {output : Entries Value} (hs : Entries.Sorted output) {key : String}
    {v : Value} (hkeep : ∀ w, Entries.get? key output = some w → ∀ l ∈ w.leaves, l ∈ v.leaves)
    {p : Position} {x : Value} :
    (p, x) ∈ leavesE (Entries.put key v output) ↔
      (p, x) ∈ leavesE output ∨ ∃ q, p = key :: q ∧ (q, x) ∈ v.leaves := by
  cases p with
  | nil => simp [mem_leavesE]
  | cons k p =>
    rw [cons_mem_leavesE (Entries.sorted_put hs), cons_mem_leavesE hs, Entries.get?_put]
    by_cases hk : k = key
    · subst hk
      rw [if_pos rfl]
      constructor
      · rintro ⟨_, heq, hp⟩
        cases heq
        exact .inr ⟨p, rfl, hp⟩
      · rintro (⟨w, hw, hp⟩ | ⟨q, heq, hq⟩)
        · exact ⟨v, rfl, hkeep w hw _ hp⟩
        · cases heq
          exact ⟨v, rfl, hq⟩
    · rw [if_neg hk]
      constructor
      · exact .inl
      · rintro (h | ⟨q, heq, -⟩)
        · exact h
        · exact absurd (List.cons.inj heq).1 hk

section Step

variable {s : Selection}
  (hsel : ∀ node : Node, node.Ordered → ∀ output, Entries.Sorted output → InStepE node output →
    ∀ p x, (p, x) ∈ leavesE (select node output s) ↔
      (p, x) ∈ leavesE output ∨ Selects node s p x)

include hsel

/-- An element that is no object is a copy: what is not followed there is there already. -/
theorem mem_leaves_within {item branch : Value} (hi : item.Ordered) (h : InStepItem item branch)
    {p : Position} {x : Value} :
    (p, x) ∈ (within (fun es => select (.of item) es s) branch).leaves ↔
      (p, x) ∈ branch.leaves ∨ Selects (.of item) s p x := by
  by_cases hobj : ∃ entries, branch = .obj entries
  · obtain ⟨entries, rfl⟩ := hobj
    obtain ⟨hs, he⟩ := inStepItem_obj.1 h
    rw [within, Value.leaves, Value.leaves]
    exact hsel _ (Node.ordered_of hi) entries hs he p x
  · have hcopy := (inStepItem_of_not_obj (fun es heq => hobj ⟨es, heq⟩)).1 h
    subst hcopy
    have hwithin : within (fun es => select (.of branch) es s) branch = branch := by
      cases branch with
      | obj entries => exact absurd ⟨entries, rfl⟩ hobj
      | null | bool | num | str | arr => rfl
    rw [hwithin]
    constructor
    · exact .inl
    · rintro (hp | ⟨hp, -⟩)
      · exact hp
      · rwa [Node.leaves_of] at hp

theorem mem_leavesL_fanOut {items branches : List Value} (hi : ∀ item ∈ items, item.Ordered)
    (hb : InStepL items branches ∨ branches = []) {p : Position} {x : Value} :
    (p, x) ∈ leavesL 0
        (fanOut (fun item => within fun es => select (.of item) es s) items branches) ↔
      (p, x) ∈ leavesL 0 branches ∨ SelectsBelow (.sequence items) s p x := by
  have hbelow : ∀ {i : Nat} {item : Value} {q : Position}, items[i]? = some item →
      ((q, x) ∈ (within (fun es => select (.of item) es s)
        (branches[i]?.getD .emptyObj)).leaves ↔
          (q, x) ∈ (branches[i]?.getD .emptyObj).leaves ∨ Selects (.of item) s q x) :=
    fun h => mem_leaves_within hsel (hi _ (List.mem_of_getElem? h)) (inStepItem_getD hb h)
  simp only [mem_leavesL, getElem?_fanOut, Nat.zero_add]
  constructor
  · rintro ⟨i, v, q, hv, hq, rfl⟩
    cases hi : items[i]? with
    | none =>
      rw [hi] at hv
      exact .inl ⟨i, v, q, hv, hq, rfl⟩
    | some item =>
      rw [hi] at hv
      cases hv
      rcases (hbelow hi).1 hq with hq | hq
      · cases hbi : branches[i]? with
        | none => rw [hbi] at hq; exact absurd hq (not_mem_leaves_emptyObj _)
        | some b => rw [hbi] at hq; exact .inl ⟨i, b, q, hbi, hq, rfl⟩
      · exact .inr ⟨i, item, q, hi, hq, rfl⟩
  · rintro (⟨i, v, q, hv, hq, rfl⟩ | ⟨i, item, q, hi, hq, rfl⟩)
    · cases hi : items[i]? with
      | none => exact ⟨i, v, q, by rw [hi]; exact hv, hq, rfl⟩
      | some item =>
        refine ⟨i, _, q, by rw [hi], (hbelow hi).2 (.inl ?_), rfl⟩
        rw [hv]
        exact hq
    · exact ⟨i, _, q, by rw [hi], (hbelow hi).2 (.inr hq), rfl⟩

theorem mem_leaves_enter {child : Node} (hc : child.Ordered) {slot : Value}
    (hslot : Enterable child slot) {p : Position} {x : Value} :
    (p, x) ∈ (enter child slot s).leaves ↔
      (p, x) ∈ slot.leaves ∨ SelectsBelow child s p x := by
  rcases hslot.cases with ⟨items, branches, rfl, rfl, hb⟩ | ⟨hq, entries, rfl, hs, he⟩ |
    ⟨rfl, ho, ha⟩
  · rw [enter, Value.leaves, Value.leaves]
    exact mem_leavesL_fanOut hsel (ordered_arr.1 (hc _ rfl)) hb
  · rw [selectsBelow_of_not_sequence hq, enter_obj hq, Value.leaves, Value.leaves]
    exact hsel child hc entries hs he p x
  · rw [enter_of_not_container ho ha, selectsBelow_of_not_sequence rfl]
    constructor
    · exact .inl
    · rintro (hp | hp)
      · exact hp
      · exact absurd hp (not_selects_scalar _ _ _ _)

theorem mem_leavesE_put_enter {node : Node} (hn : node.Ordered) {output : Entries Value}
    (hs : Entries.Sorted output) (ho : InStepE node output) (step : String) {p : Position}
    {x : Value} :
    (p, x) ∈ leavesE (Entries.put step
        (enter (node.child step) (slot (node.child step) step output) s) output) ↔
      (p, x) ∈ leavesE output ∨
        ∃ q, p = step :: q ∧ SelectsBelow (node.child step) s q x := by
  have hslot := enterable_slot ho step
  have henter := fun q x => mem_leaves_enter hsel (p := q) (x := x) (hn.child step) hslot
  have hkeep : ∀ w, Entries.get? step output = some w → ∀ l ∈ w.leaves,
      l ∈ (enter (node.child step) (slot (node.child step) step output) s).leaves := by
    intro w hw l hl
    refine (henter l.1 l.2).2 (.inl ?_)
    rw [slot, hw]
    exact hl
  rw [mem_leavesE_put hs hkeep]
  constructor
  · rintro (h | ⟨q, rfl, hq⟩)
    · exact .inl h
    · rcases (henter q x).1 hq with hq | hq
      · cases hw : Entries.get? step output with
        | none =>
          rw [slot, hw] at hq
          exact absurd hq (not_mem_leaves_emptySlot _ _)
        | some w =>
          rw [slot, hw] at hq
          exact .inl ((cons_mem_leavesE hs).2 ⟨w, hw, hq⟩)
      · exact .inr ⟨q, rfl, hq⟩
  · rintro (h | ⟨q, rfl, hq⟩)
    · exact .inl h
    · exact .inr ⟨q, rfl, (henter q x).2 (.inr hq)⟩

end Step

/-- **What a selection adds.** The leaves it asks for are there, and no leaf is lost. -/
theorem mem_leavesE_select {node : Node} (hn : node.Ordered) {output : Entries Value}
    (hs : Entries.Sorted output) (ho : InStepE node output) (s : Selection) (p : Position)
    (x : Value) :
    (p, x) ∈ leavesE (select node output s) ↔ (p, x) ∈ leavesE output ∨ Selects node s p x := by
  obtain ⟨trajectory, key⟩ := s
  induction trajectory generalizing node output p x with
  | nil =>
    rw [selects_nil hn, select, project_nil]
    cases hv : (node.child key).value? with
    | none =>
      have hmissing : node.child key = .missing := by rw [Node.child_eq_ofOption, hv]; rfl
      simp [hmissing, Node.leaves]
    | some v =>
      have hchild : node.child key = .of v := by rw [Node.child_eq_ofOption, hv]; rfl
      rw [hchild, Node.leaves_of]
      refine mem_leavesE_put hs fun w hw l hl => ?_
      have hstep : InStep (node.child key) w := inStepE_iff.1 ho _ (Entries.mem_of_get? hw)
      have hl := mem_leaves_of_inStep (hn.child key) w hstep l hl
      rwa [hchild, Node.leaves_of] at hl
  | cons step rest ih =>
    rw [selects_cons hn, select, project_cons]
    exact mem_leavesE_put_enter (fun node hn output hs ho p x => ih hn hs ho p x) hn hs ho step

/-- **What a run adds.** -/
theorem mem_leavesE_foldl_select {node : Node} (hn : node.Ordered) {output : Entries Value}
    (hs : Entries.Sorted output) (ho : InStepE node output) (ss : List Selection) (p : Position)
    (x : Value) :
    (p, x) ∈ leavesE (ss.foldl (select node) output) ↔
      (p, x) ∈ leavesE output ∨ ∃ s ∈ ss, Selects node s p x := by
  induction ss generalizing output with
  | nil => simp
  | cons s ss ih =>
    rw [List.foldl_cons, ih (sorted_select s hs) (inStepE_select hn ho s),
      mem_leavesE_select hn hs ho, or_assoc]
    simp only [List.mem_cons, exists_eq_or_imp]

end Projection

namespace KeySpec

open Projection

/-- **The leaves of an excerpt.** They are those of the document that stand at or below a position
some selection reaches. Neither the order nor the number of the selections matters. -/
theorem mem_leaves_apply (ks : KeySpec) (d : Document) :
    (∀ p x, (p, x) ∈ (ks.apply d).leaves ↔
      (p, x) ∈ d.root.leaves ∧ ∃ s ∈ ks.selections, ∃ q ∈ s.reached d, q <+: p) ∧
    ∀ ks' : KeySpec, (∀ s, s ∈ ks'.selections ↔ s ∈ ks.selections) →
      ∀ l, l ∈ (ks'.apply d).leaves ↔ l ∈ (ks.apply d).leaves := by
  have hleaves : ∀ (ks : KeySpec) (p : Position) (x : Value), (p, x) ∈ (ks.apply d).leaves ↔
      (p, x) ∈ d.root.leaves ∧ ∃ s ∈ ks.selections, ∃ q ∈ s.reached d, q <+: p := by
    intro ks p x
    have hrun := mem_leavesE_foldl_select (Node.ordered_of d.ordered) Entries.sorted_nil
      (inStepE_iff.2 (by simp)) ks.selections p x
    rw [apply, Value.leaves, excerpt, hrun]
    simp only [leavesE, List.not_mem_nil, false_or, Selects, Node.leaves_of]
    constructor
    · rintro ⟨s, hs, hp, hq⟩
      exact ⟨hp, s, hs, hq⟩
    · rintro ⟨hp, s, hs, hq⟩
      exact ⟨s, hs, hp, hq⟩
  refine ⟨hleaves ks, fun ks' hset l => ?_⟩
  obtain ⟨p, x⟩ := l
  rw [hleaves ks', hleaves ks]
  simp only [hset]

def arrayInArray : Document :=
  ⟨.obj [("a", .arr [.null, .arr [.null, .str "y"]])],
    by simp [Ordered, OrderedL, OrderedE, Entries.Sorted]⟩

theorem mem_leaves_apply_nested_arrays :
    (["a", "1", "1"], Value.str "y") ∈
        (KeySpec.apply ⟨[⟨["a", "1"], "b"⟩, ⟨["a"], "1"⟩]⟩ arrayInArray).leaves ∧
      (["a", "1", "0"], Value.null) ∉
        (KeySpec.apply ⟨[⟨["a"], "1"⟩, ⟨["a", "1"], "b"⟩, ⟨["a"], "1"⟩]⟩ arrayInArray).leaves := by
  have h := mem_leaves_apply ⟨[⟨["a", "1"], "b"⟩, ⟨["a"], "1"⟩]⟩ arrayInArray
  refine ⟨(h.1 _ _).2 ?_, fun hmem => ?_⟩
  · exact ⟨by decide +kernel, ⟨["a"], "1"⟩, by decide, ["a", "1", "1"], by decide +kernel,
      List.prefix_refl _⟩
  · have hmem := (h.2 _ (by simp) _).1 hmem
    exact absurd ((h.1 _ _).1 hmem).2 (by decide +kernel)

end KeySpec

end Excerpt
