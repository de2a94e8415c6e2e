import Excerpt.Proofs.Slots

/-!
# Values with hollow objects added

Where a selection enters the copy of a value, it adds objects that hold nothing but such objects,
and changes nothing else.

* `Value.Hollow` — an object without a leaf;
* `Value.Padded` — a value with hollow objects added;
* `Value.PaddedSlot` — a slot of a padded object;
* `padded_select`, `padded_enter` — a selection leaves a padded copy padded.
-/

namespace Excerpt

open Json

namespace Json.Value

mutual

/-- An object that holds nothing but such objects. -/
def Hollow : Value → Prop
  | .obj entries => HollowE entries
  | _ => False

def HollowE : List (String × Value) → Prop
  | [] => True
  | (_, v) :: es => Hollow v ∧ HollowE es

end

mutual

/-- `w` is `v` with hollow objects added, at keys that an object of `v` lacks. -/
def Padded : Value → Value → Prop
  | .obj es, w => ∃ fs, w = .obj fs ∧ Entries.Sorted fs ∧ PaddedE es fs ∧
      ∀ key u, Entries.get? key es = none → Entries.get? key fs = some u → Hollow u
  | .arr vs, w => ∃ ws, w = .arr ws ∧ PaddedL vs ws
  | v, w => w = v

/-- The elements are padded, and those that are arrays stay as they are. -/
def PaddedL : List Value → List Value → Prop
  | [], ws => ws = []
  | v :: vs, ws => ∃ u us, ws = u :: us ∧ Padded v u ∧ (∀ items, v = .arr items → u = v) ∧
      PaddedL vs us

def PaddedE : List (String × Value) → Entries Value → Prop
  | [], _ => True
  | (key, v) :: es, fs => (∃ w, Entries.get? key fs = some w ∧ Padded v w) ∧ PaddedE es fs

end

theorem hollow_iff {v : Value} : v.Hollow ↔ ∃ es, v = .obj es ∧ HollowE es := by
  cases v with
  | obj es => simp [Hollow]
  | null | bool | num | str | arr => simp [Hollow]

theorem hollowE_iff {es : List (String × Value)} : HollowE es ↔ ∀ e ∈ es, e.2.Hollow := by
  induction es with
  | nil => simp [HollowE]
  | cons e es ih => simp [HollowE, ih]

theorem paddedE_iff {es : List (String × Value)} {fs : Entries Value} :
    PaddedE es fs ↔ ∀ e ∈ es, ∃ w, Entries.get? e.1 fs = some w ∧ Padded e.2 w := by
  induction es with
  | nil => simp [PaddedE]
  | cons e es ih => simp [PaddedE, ih]

/-- A slot of a padded object: the value is padded, or hollow where there was none. -/
def PaddedSlot : Option Value → Option Value → Prop
  | some v, some w => Padded v w
  | some _, none => False
  | none, some w => Hollow w
  | none, none => True

/-- Padded objects, seen through their slots. -/
theorem padded_obj {es fs : Entries Value} (hs : Entries.Sorted es) :
    Padded (.obj es) (.obj fs) ↔
      Entries.Sorted fs ∧ ∀ key, PaddedSlot (Entries.get? key es) (Entries.get? key fs) := by
  rw [Padded]
  constructor
  · rintro ⟨_, heq, hfs, he, hnew⟩
    cases heq
    refine ⟨hfs, fun key => ?_⟩
    cases hv : Entries.get? key es with
    | none =>
      cases hw : Entries.get? key fs with
      | none => trivial
      | some w => exact hnew key w hv hw
    | some v =>
      obtain ⟨w, hw, hp⟩ := paddedE_iff.1 he _ (Entries.mem_of_get? hv)
      rw [hw]
      exact hp
  · rintro ⟨hfs, hslot⟩
    refine ⟨fs, rfl, hfs, paddedE_iff.2 fun ⟨key, v⟩ he => ?_, fun key u hv hu => ?_⟩
    · have hv := hslot key
      rw [Entries.get?_of_mem hs he] at hv
      cases hw : Entries.get? key fs with
      | none => simp [hw, PaddedSlot] at hv
      | some w =>
        rw [hw] at hv
        exact ⟨w, rfl, hv⟩
    · have hw := hslot key
      rw [hv, hu] at hw
      exact hw

theorem exists_of_padded_obj {es : Entries Value} {w : Value} (h : Padded (.obj es) w) :
    ∃ fs, w = .obj fs := by
  rw [Padded] at h
  obtain ⟨fs, rfl, -⟩ := h
  exact ⟨fs, rfl⟩

theorem padded_arr {vs : List Value} {w : Value} :
    Padded (.arr vs) w ↔ ∃ ws, w = .arr ws ∧ PaddedL vs ws := by
  rw [Padded]

theorem eq_of_padded_scalar {v w : Value} (ho : ∀ entries, v ≠ .obj entries)
    (ha : ∀ items, v ≠ .arr items) (h : Padded v w) : w = v := by
  cases v with
  | obj entries => exact absurd rfl (ho entries)
  | arr items => exact absurd rfl (ha items)
  | null | bool | num | str => simpa [Padded] using h

theorem PaddedL.length_eq {vs ws : List Value} (h : PaddedL vs ws) : ws.length = vs.length := by
  induction vs generalizing ws with
  | nil =>
    rw [PaddedL] at h
    rw [h]
  | cons v vs ih =>
    rw [PaddedL] at h
    obtain ⟨u, us, rfl, -, -, hus⟩ := h
    rw [List.length_cons, List.length_cons, ih hus]

theorem PaddedL.getElem? {vs ws : List Value} (h : PaddedL vs ws) {i : Nat} {v : Value}
    (hi : vs[i]? = some v) :
    ∃ w, ws[i]? = some w ∧ Padded v w ∧ ∀ items, v = .arr items → w = v := by
  induction vs generalizing ws i with
  | nil => simp at hi
  | cons v' vs ih =>
    rw [PaddedL] at h
    obtain ⟨u, us, rfl, hu, ha, hus⟩ := h
    cases i with
    | zero =>
      cases hi
      exact ⟨u, rfl, hu, ha⟩
    | succ i => exact ih hus hi

mutual

/-- A value is itself with nothing added. -/
theorem padded_self : (v : Value) → v.Ordered → Padded v v
  | .null, _ | .bool _, _ | .num _, _ | .str _, _ => by simp [Padded]
  | .arr items, h => padded_arr.2 ⟨items, rfl, paddedL_self items (ordered_arr.1 h)⟩
  | .obj es, h => by
    obtain ⟨hs, ho⟩ := ordered_obj.1 h
    refine (padded_obj hs).2 ⟨hs, fun key => ?_⟩
    cases hv : Entries.get? key es with
    | none => trivial
    | some v => exact padded_of_mem es ho _ (Entries.mem_of_get? hv)

theorem paddedL_self : (items : List Value) → (∀ v ∈ items, v.Ordered) → PaddedL items items
  | [], _ => by simp [PaddedL]
  | v :: vs, h => by
    have h := List.forall_mem_cons.1 h
    rw [PaddedL]
    exact ⟨v, vs, rfl, padded_self v h.1, fun _ _ => rfl, paddedL_self vs h.2⟩

theorem padded_of_mem : (es : List (String × Value)) → (∀ e ∈ es, e.2.Ordered) →
    ∀ e ∈ es, Padded e.2 e.2
  | [], _, _, he => absurd he List.not_mem_nil
  | (_, v) :: es, h, e, he => by
    have h := List.forall_mem_cons.1 h
    rcases List.mem_cons.1 he with rfl | he
    · exact padded_self v h.1
    · exact padded_of_mem es h.2 e he

end

end Json.Value

open Json.Value

namespace Projection

/-! ### Entering a copy -/

theorem hollow_enter_missing {s : Selection}
    (hobj : ∀ es, HollowE es → HollowE (select .missing es s)) {w : Value} (h : w.Hollow) :
    (enter .missing w s).Hollow := by
  obtain ⟨es, rfl, hes⟩ := hollow_iff.1 h
  rw [enter_obj rfl]
  exact hollow_iff.2 ⟨_, rfl, hobj es hes⟩

theorem hollowE_select_missing {es : Entries Value} (h : HollowE es) (s : Selection) :
    HollowE (select .missing es s) := by
  obtain ⟨trajectory, terminal⟩ := s
  induction trajectory generalizing es with
  | nil => exact h
  | cons step rest ih =>
    have hslot : (slot .missing step es).Hollow := by
      unfold slot
      cases hv : Entries.get? step es with
      | none => exact hollow_iff.2 ⟨[], rfl, trivial⟩
      | some v => exact hollowE_iff.1 h _ (Entries.mem_of_get? hv)
    rw [select, project_cons]
    refine hollowE_iff.2 fun e he => ?_
    rcases Entries.mem_put he with rfl | he
    · exact hollow_enter_missing (fun es hes => ih hes) hslot
    · exact hollowE_iff.1 h e he

section Padding

variable {s : Selection}
  (hobj : ∀ es fs : Entries Value, (Value.obj es).Ordered → Padded (.obj es) (.obj fs) →
    Padded (.obj es) (.obj (select (.mapping es) fs s)))

include hobj

theorem paddedL_fanOut {items branches : List Value} (hi : ∀ item ∈ items, item.Ordered)
    (h : PaddedL items branches) :
    PaddedL items (fanOut (fun item => within fun output => select (.of item) output s)
      items branches) := by
  induction items generalizing branches with
  | nil =>
    rw [PaddedL] at h
    rw [h, fanOut, PaddedL]
  | cons item items ih =>
    have hi := List.forall_mem_cons.1 hi
    rw [PaddedL] at h
    obtain ⟨branch, branches, rfl, hb, ha, hbs⟩ := h
    rw [fanOut, PaddedL]
    refine ⟨_, _, rfl, ?_, ?_, ih hi.2 hbs⟩
    · cases item with
      | obj es =>
        obtain ⟨fs, rfl⟩ := exists_of_padded_obj hb
        exact hobj es fs hi.1 hb
      | arr vs =>
        rw [ha vs rfl]
        exact padded_self _ hi.1
      | null | bool | num | str =>
        rw [eq_of_padded_scalar (by simp) (by simp) hb]
        exact padded_self _ hi.1
    · rintro vs rfl
      rw [ha vs rfl]
      rfl

theorem padded_enter_of_select {v w : Value} (hv : v.Ordered) (h : Padded v w) :
    Padded v (enter (.of v) w s) := by
  cases v with
  | obj es =>
    obtain ⟨fs, rfl⟩ := exists_of_padded_obj h
    rw [Node.of, enter_obj rfl]
    exact hobj es fs hv h
  | arr items =>
    obtain ⟨branches, rfl, hb⟩ := padded_arr.1 h
    exact padded_arr.2 ⟨_, rfl, paddedL_fanOut hobj (ordered_arr.1 hv) hb⟩
  | null | bool | num | str =>
    rw [eq_of_padded_scalar (by simp) (by simp) h, enter_of_not_container (by simp) (by simp)]
    exact padded_self _ hv

theorem paddedSlot_enter {o o' : Option Value} (ho : ∀ v, o = some v → v.Ordered)
    (h : PaddedSlot o o') : PaddedSlot o (meet (.ofOption o) o' (.enter s)) := by
  cases o with
  | none =>
    have hw : (o'.getD .emptyObj).Hollow := by
      cases o' with
      | none => exact hollow_iff.2 ⟨[], rfl, trivial⟩
      | some w => exact h
    exact hollow_enter_missing (fun es hes => hollowE_select_missing hes s) hw
  | some v =>
    cases o' with
    | none => exact h.elim
    | some w => exact padded_enter_of_select hobj (ho v rfl) h

end Padding

theorem paddedSlot_take {o o' : Option Value} (ho : ∀ v, o = some v → v.Ordered)
    (h : PaddedSlot o o') : PaddedSlot o (meet (.ofOption o) o' .take) := by
  rw [meet, Node.value?_ofOption]
  cases o with
  | none => exact h
  | some v => exact padded_self v (ho v rfl)

theorem padded_select_of_slots {es fs : Entries Value} {s : Selection}
    (he : (Value.obj es).Ordered) (h : Padded (.obj es) (.obj fs))
    (hmeet : ∀ o o' : Option Value, (∀ v, o = some v → v.Ordered) → PaddedSlot o o' →
      PaddedSlot o (meet (.ofOption o) o' s.demand)) :
    Padded (.obj es) (.obj (select (.mapping es) fs s)) := by
  obtain ⟨hs, ho⟩ := ordered_obj.1 he
  obtain ⟨hfs, hslot⟩ := (padded_obj hs).1 h
  refine (padded_obj hs).2 ⟨sorted_select s hfs, fun key => ?_⟩
  rw [get?_select, Node.child]
  split
  · exact hmeet _ _ (fun v hv => ho _ (Entries.mem_of_get? hv)) (hslot key)
  · exact hslot key

/-- **What a selection keeps of a copied object.** It adds hollow objects, and nothing else. -/
theorem padded_select {es fs : Entries Value} (he : (Value.obj es).Ordered)
    (h : Padded (.obj es) (.obj fs)) (s : Selection) :
    Padded (.obj es) (.obj (select (.mapping es) fs s)) := by
  obtain ⟨trajectory, terminal⟩ := s
  induction trajectory generalizing es fs with
  | nil => exact padded_select_of_slots he h fun _ _ ho hslot => paddedSlot_take ho hslot
  | cons step rest ih =>
    have hobj : ∀ es fs : Entries Value, (Value.obj es).Ordered → Padded (.obj es) (.obj fs) →
        Padded (.obj es) (.obj (select (.mapping es) fs ⟨rest, terminal⟩)) := fun _ _ => ih
    exact padded_select_of_slots he h fun _ _ ho hslot => paddedSlot_enter hobj ho hslot

/-- **What a selection keeps of a copy.** -/
theorem padded_enter {v w : Value} (hv : v.Ordered) (h : Padded v w) (s : Selection) :
    Padded v (enter (.of v) w s) :=
  padded_enter_of_select (fun _ _ he h => padded_select he h s) hv h

end Projection

end Excerpt
