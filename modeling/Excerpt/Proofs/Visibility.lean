import Excerpt.Proofs.Slots

/-!
# What a selection shows

Two sources look alike to a selection if the excerpts of this one selection are equal. An output of
any other contents then changes in the same way, so that excerpts depend on their source through
what the selections show one by one.

* `Below` — a relation of nodes, taken to the slots below a key;
* `Alike` — two nodes look alike to a selection, by its trajectory;
* `select_eq_of_alike` — nodes that look alike do the same to every output;
* `alike_of_select_nil` — nodes with equal excerpts look alike;
* `KeySpec.apply_eq_of_forall_apply_eq` — what no selection shows is without influence.
-/

namespace Excerpt.Projection

open Json

/-- A relation of nodes where a selection enters two slots: at arrays it relates element with
element, and an array has no relation to anything else. -/
def Below (P : Node → Node → Prop) : Node → Node → Prop
  | .sequence items, .sequence items' =>
    List.Forall₂ (fun item item' => P (.of item) (.of item')) items items'
  | c, c' => c.isSequence = false ∧ c'.isSequence = false ∧ P c c'

/-- Two nodes look alike to the selection of `key` behind a trajectory. -/
def Alike : (trajectory : List String) → (key : String) → Node → Node → Prop
  | [], key, m, n => m.child key = n.child key
  | step :: rest, key, m, n => Below (Alike rest key) (m.child step) (n.child step)

/-! ### Related slots -/

section Below

variable {P : Node → Node → Prop} {c c' : Node}

theorem below_of_not_sequence (h : c.isSequence = false) (h' : c'.isSequence = false)
    (hP : P c c') : Below P c c' := by
  cases c with
  | sequence items => simp [Node.isSequence] at h
  | missing | scalar | mapping => exact ⟨rfl, h', hP⟩

/-- Slots are related at two arrays or at none. -/
theorem Below.cases (h : Below P c c') :
    (∃ items items', c = .sequence items ∧ c' = .sequence items' ∧
      List.Forall₂ (fun item item' => P (.of item) (.of item')) items items') ∨
    (c.isSequence = false ∧ c'.isSequence = false ∧ P c c') := by
  cases hc : c.isSequence with
  | false =>
    right
    cases c with
    | sequence items => simp [Node.isSequence] at hc
    | missing | scalar | mapping => exact ⟨rfl, h.2.1, h.2.2⟩
  | true =>
    obtain ⟨items, rfl⟩ := c.exists_items hc
    left
    cases c' with
    | sequence items' => exact ⟨items, items', rfl, rfl, h⟩
    | missing | scalar | mapping =>
      have hno : (Node.sequence items).isSequence = false := h.1
      simp [Node.isSequence] at hno

theorem below_refl (hP : ∀ node, P node node) (c : Node) : Below P c c := by
  cases hc : c.isSequence with
  | false => exact below_of_not_sequence hc hc (hP c)
  | true =>
    obtain ⟨items, rfl⟩ := c.exists_items hc
    exact List.forall₂_same.2 fun item _ => hP (.of item)

theorem Below.emptySlot_eq (h : Below P c c') : c.emptySlot = c'.emptySlot := by
  rcases h.cases with ⟨items, items', rfl, rfl, -⟩ | ⟨hc, hc', -⟩
  · rfl
  · rw [Node.emptySlot_of_not_sequence hc, Node.emptySlot_of_not_sequence hc']

end Below

theorem alike_refl (trajectory : List String) (key : String) (node : Node) :
    Alike trajectory key node node := by
  induction trajectory generalizing node with
  | nil => rfl
  | cons step rest ih => exact below_refl ih (node.child step)

/-! ### Nodes that look alike -/

theorem enter_eq_of_below {P : Node → Node → Prop} {s : Selection}
    (hsel : ∀ m n, P m n → ∀ output, select m output s = select n output s) {c c' : Node}
    (h : Below P c c') (slot : Value) : enter c slot s = enter c' slot s := by
  rcases h.cases with ⟨items, items', rfl, rfl, hitems⟩ | ⟨hc, hc', hP⟩
  · cases slot with
    | arr branches =>
      refine congrArg Value.arr (fanOut_congr (hitems.imp fun item item' hP branch => ?_) branches)
      rw [funext fun output => hsel _ _ hP output]
    | null | bool | num | str | obj => rfl
  · rw [enter_of_not_sequence hc, enter_of_not_sequence hc']
    rw [funext fun output => hsel c c' hP output]

/-- **Sources that look alike do the same to every output.** -/
theorem select_eq_of_alike {s : Selection} {m n : Node} (h : Alike s.trajectory s.key m n)
    (output : Entries Value) : select m output s = select n output s := by
  obtain ⟨trajectory, key⟩ := s
  induction trajectory generalizing m n output with
  | nil =>
    have hchild : m.child key = n.child key := h
    rw [select, select, project_nil, project_nil, hchild]
  | cons step rest ih =>
    have hbelow : Below (Alike rest key) (m.child step) (n.child step) := h
    have hslot : slot (m.child step) step output = slot (n.child step) step output := by
      rw [slot, slot, hbelow.emptySlot_eq]
    rw [select, select, project_cons, project_cons, hslot]
    rw [enter_eq_of_below (fun m n hmn output => ih output hmn) hbelow]

theorem foldl_select_eq_of_alike {ss : List Selection} {m n : Node}
    (h : ∀ s ∈ ss, Alike s.trajectory s.key m n) (output : Entries Value) :
    ss.foldl (select m) output = ss.foldl (select n) output := by
  induction ss generalizing output with
  | nil => rfl
  | cons s ss ih =>
    have hs := select_eq_of_alike (h s List.mem_cons_self) output
    rw [List.foldl_cons, List.foldl_cons, hs]
    exact ih (fun s hs => h s (List.mem_cons_of_mem _ hs)) (select n output s)

/-! ### What one excerpt shows -/

theorem enter_emptyArr (items : List Value) (s : Selection) :
    enter (.sequence items) .emptyArr s =
      .arr (items.map fun item => .obj (select (.of item) [] s)) :=
  congrArg Value.arr (fanOut_nil _ items)

theorem enter_emptySlot {child : Node} (h : child.isSequence = false) (s : Selection) :
    enter child child.emptySlot s = .obj (select child [] s) :=
  foldl_enter_emptySlot h [s]

/-- A slot that is created shows everything the selection depends on below it. -/
theorem below_of_enter_emptySlot {P : Node → Node → Prop} {s : Selection}
    (hP : ∀ m n, select m [] s = select n [] s → P m n) {c c' : Node}
    (h : enter c c.emptySlot s = enter c' c'.emptySlot s) : Below P c c' := by
  cases hc : c.isSequence with
  | true =>
    obtain ⟨items, rfl⟩ := c.exists_items hc
    cases hc' : c'.isSequence with
    | true =>
      obtain ⟨items', rfl⟩ := c'.exists_items hc'
      have harr : Value.arr (items.map fun item => .obj (select (.of item) [] s)) =
          .arr (items'.map fun item => .obj (select (.of item) [] s)) := by
        rw [← enter_emptyArr, ← enter_emptyArr]
        exact h
      have hmap := Value.arr.inj harr
      rw [← List.forall₂_eq_eq_eq, List.forall₂_map_left_iff, List.forall₂_map_right_iff] at hmap
      exact hmap.imp fun item item' heq => hP _ _ (Value.obj.inj heq)
    | false =>
      rw [enter_emptySlot hc'] at h
      exact absurd ((enter_emptyArr items s).symm.trans h) (by simp)
  | false =>
    rw [enter_emptySlot hc] at h
    cases hc' : c'.isSequence with
    | true =>
      obtain ⟨items', rfl⟩ := c'.exists_items hc'
      exact absurd (h.trans (enter_emptyArr items' s)) (by simp)
    | false =>
      rw [enter_emptySlot hc'] at h
      exact below_of_not_sequence hc hc' (hP c c' (Value.obj.inj h))

/-- **Sources with equal excerpts look alike.** -/
theorem alike_of_select_nil {s : Selection} {m n : Node} (h : select m [] s = select n [] s) :
    Alike s.trajectory s.key m n := by
  obtain ⟨trajectory, key⟩ := s
  induction trajectory generalizing m n with
  | nil =>
    have hvalue : (m.child key).value? = (n.child key).value? := by
      rw [select, select, project_nil, project_nil] at h
      cases hm : (m.child key).value? with
      | none =>
        cases hn : (n.child key).value? with
        | none => rfl
        | some w => simp [hm, hn, Entries.put] at h
      | some v =>
        cases hn : (n.child key).value? with
        | none => simp [hm, hn, Entries.put] at h
        | some w =>
          have hvw : v = w := by simpa [hm, hn, Entries.put] using h
          rw [hvw]
    show m.child key = n.child key
    rw [m.child_eq_ofOption, n.child_eq_ofOption, hvalue]
  | cons step rest ih =>
    rw [select, select, project_cons, project_cons] at h
    have hslot : enter (m.child step) (m.child step).emptySlot ⟨rest, key⟩ =
        enter (n.child step) (n.child step).emptySlot ⟨rest, key⟩ :=
      (Prod.mk.inj (List.cons.inj h).1).2
    exact below_of_enter_emptySlot (fun m n hmn => ih hmn) hslot

end Excerpt.Projection

namespace Excerpt.KeySpec

open Json Projection

/-- **What no selection shows is without influence.** Documents whose excerpts agree for every
selection by itself have equal excerpts. -/
theorem apply_eq_of_forall_apply_eq (ks : KeySpec) {d₁ d₂ : Value}
    (h : ∀ s ∈ ks.selections, KeySpec.apply ⟨[s]⟩ d₁ = KeySpec.apply ⟨[s]⟩ d₂) :
    ks.apply d₁ = ks.apply d₂ := by
  have halike : ∀ s ∈ ks.selections, Alike s.trajectory s.key (.of d₁) (.of d₂) := by
    intro s hs
    have hone : Value.obj (select (.of d₁) [] s) = .obj (select (.of d₂) [] s) := h s hs
    exact alike_of_select_nil (Value.obj.inj hone)
  exact congrArg Value.obj (foldl_select_eq_of_alike halike [])

/-- Selections that write over one another. -/
def overwriting : KeySpec := ⟨[⟨["a", "b"], "e"⟩, ⟨["a"], "b"⟩, ⟨["a"], "c"⟩]⟩

/-- The selections `a.b.e`, `a.b` and `a.c` write over one another, and show neither the key `z` nor
what the second element is. -/
theorem apply_eq_of_hidden_parts :
    ∃ d₁ d₂ : Value, d₁ = .obj [("a", .arr [.obj [("b", .bool true), ("z", .null)], .null])] ∧
      d₂ = .obj [("a", .arr [.obj [("b", .bool true)], .arr [.null]])] ∧
      (∀ s ∈ overwriting.selections, KeySpec.apply ⟨[s]⟩ d₁ = KeySpec.apply ⟨[s]⟩ d₂) ∧
      overwriting.apply d₁ = overwriting.apply d₂ := by
  refine ⟨_, _, rfl, rfl, ?_⟩
  have hone : ∀ s ∈ overwriting.selections,
      KeySpec.apply ⟨[s]⟩ (.obj [("a", .arr [.obj [("b", .bool true), ("z", .null)], .null])]) =
        KeySpec.apply ⟨[s]⟩ (.obj [("a", .arr [.obj [("b", .bool true)], .arr [.null]])]) := by
    decide
  exact ⟨hone, apply_eq_of_forall_apply_eq overwriting hone⟩

end Excerpt.KeySpec
