import Excerpt.Proofs.Narrowing

/-!
# Order and repetition of selections

Where no selection of a list goes on below the end of another, neither their order nor how often
each of them stands in the list matters, whatever the output holds before.

* `Interchangeable` — two lists do the same to every output;
* `enter_cases`, `foldl_enter_eq` — entering a slot, of whatever kind it is;
* `foldl_meet_eq` — one slot: all selections take its value, or all enter it;
* `foldl_select_eq_of_mem_iff` — lists with the same members are interchangeable.
-/

namespace Excerpt.Projection

open Json

/-- Two lists of selections do the same to every output, from every source. -/
def Interchangeable (ss ts : List Selection) : Prop :=
  ∀ (node : Node) (output : Entries Value), (Value.obj output).Ordered →
    ss.foldl (select node) output = ts.foldl (select node) output

/-! ### Entering a slot -/

/-- A selection goes on in an array where the source has one, and in an object where it has none.
Every other slot stays as it is. -/
theorem enter_cases (child : Node) (slot : Value) :
    (∃ items branches, child = .sequence items ∧ slot = .arr branches) ∨
      (child.isSequence = false ∧ ∃ entries, slot = .obj entries) ∨
      ∀ s, enter child slot s = slot := by
  cases hc : child.isSequence with
  | true =>
    obtain ⟨items, rfl⟩ := child.exists_items hc
    cases slot with
    | arr branches => exact .inl ⟨items, branches, rfl, rfl⟩
    | null | bool | num | str | obj => exact .inr (.inr fun s => rfl)
  | false =>
    cases slot with
    | obj entries => exact .inr (.inl ⟨rfl, entries, rfl⟩)
    | null | bool | num | str | arr =>
      exact .inr (.inr fun s => enter_of_not_sequence hc _ s)

theorem foldl_enter_unchanged {child : Node} {slot : Value} (h : ∀ s, enter child slot s = slot)
    (ss : List Selection) : ss.foldl (enter child) slot = slot := by
  induction ss with
  | nil => rfl
  | cons s ss ih => rw [List.foldl_cons, h, ih]

theorem ordered_emptySlot (child : Node) : child.emptySlot.Ordered := by
  cases child with
  | sequence items => exact Value.ordered_arr.2 (by simp)
  | missing | scalar | mapping => exact Value.ordered_obj.2 ⟨Entries.sorted_nil, by simp⟩

section Enter

variable {es fs : List Selection} (h : Interchangeable es fs)

include h

/-- An element of an array that is gone through. -/
theorem within_foldl_eq (node : Node) {branch : Value} (hb : branch.Ordered) :
    within (es.foldl (select node)) branch = within (fs.foldl (select node)) branch := by
  cases branch with
  | obj entries => exact congrArg Value.obj (h node entries hb)
  | null | bool | num | str | arr => rfl

theorem fanOut_foldl_eq (items : List Value) {branches : List Value}
    (hb : ∀ branch ∈ branches, branch.Ordered) :
    fanOut (fun item => within (es.foldl (select (.of item)))) items branches =
      fanOut (fun item => within (fs.foldl (select (.of item)))) items branches := by
  refine List.ext_getElem? fun i => ?_
  rw [getElem?_fanOut, getElem?_fanOut]
  cases items[i]? with
  | none => rfl
  | some item =>
    have hbranch : (branches[i]?.getD .emptyObj).Ordered := by
      cases hi : branches[i]? with
      | none => exact ordered_emptySlot .missing
      | some branch => exact hb branch (List.mem_of_getElem? hi)
    exact congrArg some (within_foldl_eq h (.of item) hbranch)

/-- Interchangeable lists do the same to every slot that they enter. -/
theorem foldl_enter_eq (hnil : es = [] ↔ fs = []) (child : Node) {slot : Value}
    (hs : slot.Ordered) : es.foldl (enter child) slot = fs.foldl (enter child) slot := by
  rcases enter_cases child slot with ⟨items, branches, rfl, rfl⟩ | ⟨hc, entries, rfl⟩ | hsame
  · by_cases hne : es = []
    · rw [hne, hnil.1 hne]
    · rw [foldl_enter_arr items branches hne, foldl_enter_arr items branches (mt hnil.2 hne)]
      exact congrArg Value.arr (fanOut_foldl_eq h items (Value.ordered_arr.1 hs))
  · rw [foldl_enter_obj hc, foldl_enter_obj hc, h child entries hs]
  · rw [foldl_enter_unchanged hsame, foldl_enter_unchanged hsame]

end Enter

/-! ### One slot -/

section Slot

variable {ss ts : List Selection} {key : String}

theorem mem_demands_iff (hmem : ∀ s, s ∈ ss ↔ s ∈ ts) (t : Demand) :
    t ∈ demands key ss ↔ t ∈ demands key ts := by
  rw [mem_demands, mem_demands]
  exact exists_congr fun s => and_congr_left fun _ => hmem s

/-- Where the value of a slot is taken, nothing goes on below it. -/
theorem eq_take_of_mem (hun : ∀ s ∈ ss, Unextended s ss) (h : Demand.take ∈ demands key ss)
    {t : Demand} (ht : t ∈ demands key ss) : t = .take :=
  (hun _ (take_mem_demands.1 h)).eq_take ht

/-- **One slot under lists with the same members.** All of them take its value, or all enter it. -/
theorem foldl_meet_eq (hmem : ∀ s, s ∈ ss ↔ s ∈ ts) (hun : ∀ s ∈ ss, Unextended s ss)
    (hbelow : ∀ es fs : List Selection, demands key ss = es.map Demand.enter →
      (∀ s, s ∈ es ↔ s ∈ fs) → Interchangeable es fs)
    (child : Node) {slot : Option Value} (hs : ∀ v, slot = some v → v.Ordered) :
    (demands key ss).foldl (meet child) slot = (demands key ts).foldl (meet child) slot := by
  have hds : ∀ t, t ∈ demands key ss ↔ t ∈ demands key ts := mem_demands_iff hmem
  by_cases htake : Demand.take ∈ demands key ss
  · have htake' := (hds _).1 htake
    rw [foldl_meet_takes child slot (fun t ht => eq_take_of_mem hun htake ht)
      (List.ne_nil_of_mem htake)]
    rw [foldl_meet_takes child slot (fun t ht => eq_take_of_mem hun htake ((hds t).2 ht))
      (List.ne_nil_of_mem htake')]
  · obtain ⟨es, hes⟩ := exists_enters_of_not_mem htake
    obtain ⟨fs, hfs⟩ := exists_enters_of_not_mem fun h => htake ((hds _).2 h)
    have hiff : ∀ s, s ∈ es ↔ s ∈ fs := by
      intro s
      rw [mem_enters_iff hes, mem_enters_iff hfs, hmem]
    have hnil : es = [] ↔ fs = [] := by
      rw [List.eq_nil_iff_forall_not_mem, List.eq_nil_iff_forall_not_mem]
      exact forall_congr' fun s => not_congr (hiff s)
    have henter : ∀ {slot : Value}, slot.Ordered →
        es.foldl (enter child) slot = fs.foldl (enter child) slot :=
      fun hs => foldl_enter_eq (hbelow es fs hes hiff) hnil child hs
    rw [hes, hfs]
    cases slot with
    | some v => rw [foldl_meet_enters, foldl_meet_enters, henter (hs v rfl)]
    | none =>
      by_cases hne : es = []
      · rw [hne, hnil.1 hne]
      · rw [foldl_meet_enters_none child hne, foldl_meet_enters_none child (mt hnil.2 hne),
          henter (ordered_emptySlot child)]

end Slot

/-! ### Whole outputs -/

/-- Lists are interchangeable if what enters each slot is. -/
theorem interchangeable_of_slots {ss ts : List Selection} (hmem : ∀ s, s ∈ ss ↔ s ∈ ts)
    (hun : ∀ s ∈ ss, Unextended s ss)
    (hbelow : ∀ key (es fs : List Selection), (∀ e ∈ es, Demand.enter e ∈ demands key ss) →
      (∀ s, s ∈ es ↔ s ∈ fs) → Interchangeable es fs) : Interchangeable ss ts := by
  intro node output ho
  obtain ⟨hsorted, hvalues⟩ := Value.ordered_obj.1 ho
  refine Entries.ext (sorted_foldl_select ss hsorted) (sorted_foldl_select ts hsorted)
    fun key => ?_
  rw [get?_foldl_select, get?_foldl_select]
  refine foldl_meet_eq hmem hun (fun es fs hes hiff => hbelow key es fs ?_ hiff) _
    fun v hv => hvalues _ (Entries.mem_of_get? hv)
  intro e he
  exact hes ▸ List.mem_map_of_mem he

theorem interchangeable (ss : List Selection) :
    ∀ ts, (∀ s, s ∈ ss ↔ s ∈ ts) → (∀ s ∈ ss, Unextended s ss) → Interchangeable ss ts := by
  induction ss using slot_induction with
  | nil =>
    intro ts hmem _
    have hts : ts = [] := List.eq_nil_iff_forall_not_mem.2 fun s hs => by simpa using (hmem s).2 hs
    rw [hts]
    exact fun _ _ _ => rfl
  | slots ss ih =>
    intro ts hmem hun
    refine interchangeable_of_slots hmem hun fun key es fs hes hiff => ih key es hes fs hiff ?_
    -- what enters a slot goes on below nothing else that enters it
    intro e he
    exact (hun _ (enter_mem_demands.1 (hes e he))).enter hes

/-- **Order and repetition do not matter** where no selection goes on below the end of another.
Lists with the same members then do the same to every output, whatever it holds, if the objects in
it have their keys in order. -/
theorem foldl_select_eq_of_mem_iff {ss ts : List Selection} (hmem : ∀ s, s ∈ ss ↔ s ∈ ts)
    (hun : ∀ s ∈ ss, Unextended s ss) (node : Node) {output : Entries Value}
    (ho : (Value.obj output).Ordered) :
    ss.foldl (select node) output = ts.foldl (select node) output :=
  interchangeable ss ts hmem hun node output ho

/-- Two selections below one key, one of them twice. -/
def twoBelowKey : List Selection := [⟨["a"], "b"⟩, ⟨["a"], "c"⟩, ⟨["a"], "b"⟩]

/-- The same two, in the other order. -/
def twoReversed : List Selection := [⟨["a"], "c"⟩, ⟨["a"], "b"⟩]

/-- They go into an array that is longer than that of the source and holds a scalar where it has an
object. -/
theorem foldl_select_eq_of_mem_iff_odd_array :
    (∀ s, s ∈ twoBelowKey ↔ s ∈ twoReversed) ∧
    (∀ s ∈ twoBelowKey, Unextended s twoBelowKey) ∧
    ∃ (source : Value) (output : Entries Value),
      source = .obj [("a", .arr [.obj [("b", .null)], .obj [("b", .null)]])] ∧
      output = [("a", .arr [.null, .obj [("z", .null)], .obj []])] ∧ (Value.obj output).Ordered ∧
      twoBelowKey.foldl (select (.of source)) output =
        twoReversed.foldl (select (.of source)) output := by
  have hmem : ∀ s, s ∈ twoBelowKey ↔ s ∈ twoReversed := by
    intro s
    simp only [twoBelowKey, twoReversed, List.mem_cons, List.not_mem_nil, or_false]
    tauto
  have hun : ∀ s ∈ twoBelowKey, Unextended s twoBelowKey := by
    unfold Unextended
    decide
  have ho : (Value.obj [("a", .arr [.null, .obj [("z", .null)], .obj []])]).Ordered := by
    simp [Value.Ordered, Value.OrderedL, Value.OrderedE, Entries.Sorted]
  exact ⟨hmem, hun, _, _, rfl, rfl, ho, foldl_select_eq_of_mem_iff hmem hun _ ho⟩

end Excerpt.Projection
