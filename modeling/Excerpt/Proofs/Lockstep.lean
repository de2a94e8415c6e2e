import Excerpt.Proofs.Slots

/-!
# Output and source in step

Wherever an output holds something, it holds what its source has there, a copy or a container of
the same kind. Where the source has a scalar or nothing, the containers are objects of objects.

* `InStep` — a value of an output is in step with the source at its place;
* `InStepE` — the entries of an output are;
* `inStep_of` — a copy is;
* `inStepE_select`, `inStepE_foldl_select` — it stays so, selection after selection.
-/

namespace Excerpt.Projection

open Json

mutual

/-- A value of an output is in step with the node of the source at its place. -/
def InStep : Node → Value → Prop
  | node, .obj entries =>
    node.isSequence = false ∧ Entries.Sorted entries ∧ InStepE node entries
  | node, .arr branches => ∃ items, node = .sequence items ∧ InStepL items branches
  | node, v => node = .scalar v

/-- An element of an output is in step with that of the source: it is a copy, or an object below
whose keys stands what the element has there. -/
def InStepItem : Value → Value → Prop
  | item, .obj entries => Entries.Sorted entries ∧ InStepE (.of item) entries
  | item, v => v = item

def InStepL : List Value → List Value → Prop
  | [], [] => True
  | item :: items, branch :: branches => InStepItem item branch ∧ InStepL items branches
  | _, _ => False

/-- The entries of an output are in step with a node of the source. -/
def InStepE : Node → List (String × Value) → Prop
  | _, [] => True
  | node, (key, v) :: entries => InStep (node.child key) v ∧ InStepE node entries

end

theorem inStepE_iff {node : Node} {entries : List (String × Value)} :
    InStepE node entries ↔ ∀ e ∈ entries, InStep (node.child e.1) e.2 := by
  induction entries with
  | nil => simp [InStepE]
  | cons e entries ih => simp [InStepE, ih]

theorem inStep_obj {node : Node} {entries : List (String × Value)} :
    InStep node (.obj entries) ↔
      node.isSequence = false ∧ Entries.Sorted entries ∧ InStepE node entries := by
  rw [InStep]

theorem inStep_arr {node : Node} {branches : List Value} :
    InStep node (.arr branches) ↔ ∃ items, node = .sequence items ∧ InStepL items branches := by
  rw [InStep]

theorem inStepItem_obj {item : Value} {entries : List (String × Value)} :
    InStepItem item (.obj entries) ↔ Entries.Sorted entries ∧ InStepE (.of item) entries := by
  rw [InStepItem]

theorem inStep_of_not_container {node : Node} {v : Value} (ho : ∀ entries, v ≠ .obj entries)
    (ha : ∀ branches, v ≠ .arr branches) : InStep node v ↔ node = .scalar v := by
  cases v with
  | obj entries => exact absurd rfl (ho entries)
  | arr branches => exact absurd rfl (ha branches)
  | null | bool | num | str => simp [InStep]

theorem inStepItem_of_not_obj {item v : Value} (ho : ∀ entries, v ≠ .obj entries) :
    InStepItem item v ↔ v = item := by
  cases v with
  | obj entries => exact absurd rfl (ho entries)
  | null | bool | num | str | arr => simp [InStepItem]

theorem inStepItem_emptyObj (item : Value) : InStepItem item .emptyObj :=
  inStepItem_obj.2 ⟨Entries.sorted_nil, inStepE_iff.2 (by simp)⟩

theorem getElem?_of_inStepL {items branches : List Value} (h : InStepL items branches) {i : Nat}
    {branch : Value} (hb : branches[i]? = some branch) :
    ∃ item, items[i]? = some item ∧ InStepItem item branch := by
  induction items generalizing branches i with
  | nil =>
    cases branches with
    | nil => simp at hb
    | cons b branches => simp [InStepL] at h
  | cons item items ih =>
    cases branches with
    | nil => simp at hb
    | cons b branches =>
      rw [InStepL] at h
      cases i with
      | zero =>
        cases hb
        exact ⟨item, rfl, h.1⟩
      | succ i => exact ih h.2 hb

theorem inStepItem_getD {items branches : List Value}
    (hb : InStepL items branches ∨ branches = []) {i : Nat} {item : Value}
    (hi : items[i]? = some item) : InStepItem item (branches[i]?.getD .emptyObj) := by
  cases hbi : branches[i]? with
  | none => exact inStepItem_emptyObj item
  | some branch =>
    rcases hb with hb | rfl
    · obtain ⟨item', hi', h⟩ := getElem?_of_inStepL hb hbi
      rw [hi] at hi'
      cases hi'
      exact h
    · simp at hbi

/-! ### Copies -/

theorem child_of_mem {entries : List (String × Value)} (hs : Entries.Sorted entries)
    {e : String × Value} (he : e ∈ entries) : (Node.mapping entries).child e.1 = .of e.2 := by
  rw [Node.child, Entries.get?_of_mem hs he]
  rfl

theorem inStepItem_of_inStep {v : Value} (h : InStep (.of v) v) : InStepItem v v := by
  cases v with
  | obj entries => exact inStepItem_obj.2 (inStep_obj.1 h).2
  | null | bool | num | str | arr => exact (inStepItem_of_not_obj (by simp)).2 rfl

mutual

/-- A copy is in step with its source. -/
theorem inStep_of : (v : Value) → v.Ordered → InStep (.of v) v
  | .null, _ | .bool _, _ | .num _, _ | .str _, _ => by simp [InStep, Node.of]
  | .arr items, h => inStep_arr.2 ⟨items, rfl, inStepL_self items h⟩
  | .obj entries, h => by
    obtain ⟨hs, ho⟩ := h
    refine inStep_obj.2 ⟨rfl, hs, inStepE_iff.2 fun e he => ?_⟩
    have hchild := child_of_mem hs he
    show InStep ((Node.mapping entries).child e.1) e.2
    rw [hchild]
    exact inStep_of_mem entries ho e he

theorem inStepL_self : (vs : List Value) → Value.OrderedL vs → InStepL vs vs
  | [], _ => by simp [InStepL]
  | v :: vs, h => by
    rw [InStepL]
    exact ⟨inStepItem_of_inStep (inStep_of v h.1), inStepL_self vs h.2⟩

theorem inStep_of_mem : (es : List (String × Value)) → Value.OrderedE es →
    ∀ e ∈ es, InStep (.of e.2) e.2
  | [], _, _, he => absurd he List.not_mem_nil
  | (_, v) :: es, h, e, he => by
    rcases List.mem_cons.1 he with rfl | he
    · exact inStep_of v h.1
    · exact inStep_of_mem es h.2 e he

end

/-! ### Selections -/

theorem inStepE_put {node : Node} {output : Entries Value} {key : String} {v : Value}
    (ho : InStepE node output) (hv : InStep (node.child key) v) :
    InStepE node (Entries.put key v output) := by
  refine inStepE_iff.2 fun e he => ?_
  rcases Entries.mem_put he with rfl | he
  · exact hv
  · exact inStepE_iff.1 ho e he

theorem inStepL_fanOut {f : Value → Value → Value} {items branches : List Value}
    (hf : ∀ item ∈ items, ∀ branch, InStepItem item branch → InStepItem item (f item branch))
    (h : InStepL items branches ∨ branches = []) : InStepL items (fanOut f items branches) := by
  induction items generalizing branches with
  | nil =>
    rcases h with h | rfl
    · exact h
    · simp [fanOut, InStepL]
  | cons item items ih =>
    have ih := fun bs => @ih bs fun item' hi => hf item' (List.mem_cons_of_mem _ hi)
    have hitem := hf item List.mem_cons_self
    cases branches with
    | nil =>
      rw [fanOut, InStepL]
      exact ⟨hitem _ (inStepItem_emptyObj item), ih [] (.inr rfl)⟩
    | cons branch branches =>
      have h : InStepL (item :: items) (branch :: branches) := by simpa using h
      rw [InStepL] at h
      rw [fanOut, InStepL]
      exact ⟨hitem _ h.1, ih _ (.inl h.2)⟩

theorem inStepItem_within {f : Entries Value → Entries Value} {item branch : Value}
    (hf : ∀ es, Entries.Sorted es → InStepE (.of item) es →
      Entries.Sorted (f es) ∧ InStepE (.of item) (f es))
    (h : InStepItem item branch) : InStepItem item (within f branch) := by
  cases branch with
  | obj entries =>
    obtain ⟨hs, he⟩ := inStepItem_obj.1 h
    exact inStepItem_obj.2 (hf entries hs he)
  | null | bool | num | str | arr => exact h

theorem inStep_emptySlot {child : Node} (h : child.isSequence = false) :
    InStep child child.emptySlot := by
  rw [Node.emptySlot_of_not_sequence h]
  exact inStep_obj.2 ⟨h, Entries.sorted_nil, inStepE_iff.2 (by simp)⟩

/-- A slot that a selection enters: in step, or the container that is created there. -/
def Enterable (child : Node) (slot : Value) : Prop := InStep child slot ∨ slot = child.emptySlot

/-- **What a selection meets in a slot.** At a sequence it meets an array, and elsewhere an object
or a copied scalar. -/
theorem Enterable.cases {child : Node} {slot : Value} (h : Enterable child slot) :
    (∃ items branches, child = .sequence items ∧ slot = .arr branches ∧
      (InStepL items branches ∨ branches = [])) ∨
    (child.isSequence = false ∧
      ∃ entries, slot = .obj entries ∧ Entries.Sorted entries ∧ InStepE child entries) ∨
    (child = .scalar slot ∧ (∀ entries, slot ≠ .obj entries) ∧
      ∀ branches, slot ≠ .arr branches) := by
  cases hq : child.isSequence with
  | true =>
    obtain ⟨items, rfl⟩ := child.exists_items hq
    rcases h with h | rfl
    · cases slot with
      | arr branches =>
        obtain ⟨_, heq, hb⟩ := inStep_arr.1 h
        cases heq
        exact .inl ⟨items, branches, rfl, rfl, .inl hb⟩
      | null | bool | num | str | obj => simp [InStep, Node.isSequence] at h
    · exact .inl ⟨items, [], rfl, rfl, .inr rfl⟩
  | false =>
    have h : InStep child slot := by
      rcases h with h | rfl
      · exact h
      · exact inStep_emptySlot hq
    cases slot with
    | obj entries => exact .inr (.inl ⟨rfl, entries, rfl, (inStep_obj.1 h).2⟩)
    | arr branches =>
      obtain ⟨items, rfl, -⟩ := inStep_arr.1 h
      simp [Node.isSequence] at hq
    | null | bool | num | str =>
      have hscalar := (inStep_of_not_container (by simp) (by simp)).1 h
      exact .inr (.inr ⟨hscalar, by simp, by simp⟩)

theorem inStep_enter {child : Node} (hc : child.Ordered) {slot : Value} {s : Selection}
    (hslot : Enterable child slot)
    (hsel : ∀ node : Node, node.Ordered → ∀ output, InStepE node output →
      InStepE node (select node output s)) :
    InStep child (enter child slot s) := by
  rcases hslot.cases with ⟨items, branches, rfl, rfl, hb⟩ | ⟨hq, entries, rfl, hs, he⟩ |
    ⟨rfl, ho, ha⟩
  · refine inStep_arr.2 ⟨items, rfl, inStepL_fanOut (fun item hi branch hbr => ?_) hb⟩
    have hitem := Node.ordered_of (Value.ordered_arr.1 (hc _ rfl) item hi)
    exact inStepItem_within (fun es hs he => ⟨sorted_select s hs, hsel _ hitem es he⟩) hbr
  · rw [enter_obj hq]
    exact inStep_obj.2 ⟨hq, sorted_select s hs, hsel child hc entries he⟩
  · rw [enter_of_not_container ho ha]
    exact (inStep_of_not_container ho ha).2 rfl

theorem enterable_slot {node : Node} {output : Entries Value} (ho : InStepE node output)
    (step : String) : Enterable (node.child step) (slot (node.child step) step output) := by
  unfold slot
  cases h : Entries.get? step output with
  | none => exact .inr rfl
  | some v => exact .inl (inStepE_iff.1 ho _ (Entries.mem_of_get? h))

/-- **What a selection keeps.** An output in step with its source stays so. -/
theorem inStepE_select {node : Node} (hn : node.Ordered) {output : Entries Value}
    (ho : InStepE node output) (s : Selection) : InStepE node (select node output s) := by
  obtain ⟨trajectory, key⟩ := s
  induction trajectory generalizing node output with
  | nil =>
    rw [select, project_nil]
    split
    · next v hv =>
      refine inStepE_put ho ?_
      rw [Node.child_eq_ofOption, hv]
      exact inStep_of v (hn.child key v hv)
    · exact ho
  | cons step rest ih =>
    rw [select, project_cons]
    exact inStepE_put ho (inStep_enter (hn.child step) (enterable_slot ho step)
      fun node hn output ho => ih hn ho)

/-- **What a run keeps.** The excerpt of a source is in step with it. -/
theorem inStepE_foldl_select {node : Node} (hn : node.Ordered) {output : Entries Value}
    (ho : InStepE node output) (ss : List Selection) :
    InStepE node (ss.foldl (select node) output) := by
  induction ss generalizing output with
  | nil => exact ho
  | cons s ss ih => exact ih (inStepE_select hn ho s)

end Excerpt.Projection
