import Excerpt.Proofs.Slots

/-!
# Demands on one slot

What a run asks of one slot, one demand after another: to take the value, or to enter.

* `take_mem_demands`, `enter_mem_demands` — which selections of a list make the demands;
* `slot_induction` — induction on what enters the slots;
* `exists_enters` — what is asked before the value was last taken is overwritten;
* `entered` — the selections that enter, and what they leave where nothing was;
* `deepen` — an element of a copied array after a run;
* `exists_entered_copy` — selections that meet a copy enter the copy.
-/

namespace Excerpt

/-- The selection with a key before its path. -/
def Selection.under (key : String) (s : Selection) : Selection := ⟨key :: s.trajectory, s.key⟩

end Excerpt

namespace Excerpt.Projection

open Json

/-! ### Demands that enter -/

theorem foldl_meet_enters (child : Node) (slot : Value) (ss : List Selection) :
    (ss.map Demand.enter).foldl (meet child) (some slot) = some (ss.foldl (enter child) slot) := by
  induction ss generalizing slot with
  | nil => rfl
  | cons s ss ih => exact ih (enter child slot s)

theorem foldl_meet_enters_none (child : Node) {ss : List Selection} (h : ss ≠ []) :
    (ss.map Demand.enter).foldl (meet child) none =
      some (ss.foldl (enter child) child.emptySlot) := by
  cases ss with
  | nil => exact absurd rfl h
  | cons s ss => exact foldl_meet_enters child (enter child child.emptySlot s) ss

/-- Either the value is never taken, or it is last taken before some selections enter. -/
theorem exists_enters (ts : List Demand) :
    (∃ ss : List Selection, ts = ss.map Demand.enter) ∨
      ∃ (before : List Demand) (ss : List Selection),
        ts = before ++ Demand.take :: ss.map Demand.enter := by
  induction ts with
  | nil => exact .inl ⟨[], rfl⟩
  | cons t ts ih =>
    rcases ih with ⟨ss, rfl⟩ | ⟨before, ss, rfl⟩
    · cases t with
      | take => exact .inr ⟨[], ss, rfl⟩
      | enter s => exact .inl ⟨s :: ss, rfl⟩
    · exact .inr ⟨t :: before, ss, rfl⟩

/-- Where the value is never taken, all demands enter. -/
theorem exists_enters_of_not_mem {ts : List Demand} (h : Demand.take ∉ ts) :
    ∃ ss : List Selection, ts = ss.map Demand.enter := by
  rcases exists_enters ts with hss | ⟨before, ss, rfl⟩
  · exact hss
  · exact absurd (List.mem_append_right _ List.mem_cons_self) h

theorem mem_demands {key : String} {t : Demand} {ss : List Selection} :
    t ∈ demands key ss ↔ ∃ s ∈ ss, s.first = key ∧ s.demand = t := by
  simp [demands, List.mem_filterMap]

theorem take_mem_demands {key : String} {ss : List Selection} :
    Demand.take ∈ demands key ss ↔ ⟨[], key⟩ ∈ ss := by
  rw [mem_demands]
  constructor
  · rintro ⟨⟨trajectory, terminal⟩, hs, hfirst, hdemand⟩
    cases trajectory with
    | nil =>
      obtain rfl : terminal = key := hfirst
      exact hs
    | cons step rest => cases hdemand
  · exact fun h => ⟨_, h, rfl, rfl⟩

theorem enter_mem_demands {key : String} {e : Selection} {ss : List Selection} :
    Demand.enter e ∈ demands key ss ↔ e.under key ∈ ss := by
  rw [mem_demands]
  constructor
  · rintro ⟨⟨trajectory, terminal⟩, hs, hfirst, hdemand⟩
    cases trajectory with
    | nil => cases hdemand
    | cons step rest =>
      obtain rfl : step = key := hfirst
      obtain rfl := Demand.enter.inj hdemand
      exact hs
  · exact fun h => ⟨_, h, rfl, rfl⟩

/-- Where all demands enter, what enters stands in the list below the key. -/
theorem mem_enters_iff {key : String} {ss es : List Selection}
    (h : demands key ss = es.map Demand.enter) {e : Selection} : e ∈ es ↔ e.under key ∈ ss := by
  rw [← enter_mem_demands, h, List.mem_map_of_injective fun _ _ heq => Demand.enter.inj heq]

/-- **Induction over slots.** What holds of no selections, and of a list whenever it holds of what
enters each slot, holds of every list: what enters a slot has shorter trajectories. -/
theorem slot_induction {P : List Selection → Prop} (nil : P [])
    (slots : ∀ ss, (∀ key (es : List Selection), (∀ e ∈ es, Demand.enter e ∈ demands key ss) →
      P es) → P ss)
    (ss : List Selection) : P ss := by
  obtain ⟨n, hn⟩ : ∃ n, ∀ s ∈ ss, s.trajectory.length < n := by
    induction ss with
    | nil => exact ⟨0, by simp⟩
    | cons s ss ih =>
      obtain ⟨n, hn⟩ := ih
      refine ⟨max (s.trajectory.length + 1) n, List.forall_mem_cons.2 ⟨by omega, ?_⟩⟩
      intro s' hs'
      have hlt := hn s' hs'
      omega
  induction n generalizing ss with
  | zero =>
    have hss : ss = [] := List.eq_nil_iff_forall_not_mem.2 fun s hs => Nat.not_lt_zero _ (hn s hs)
    exact hss ▸ nil
  | succ n ih =>
    refine slots ss fun key es hes => ih es fun e he => ?_
    have hlt := hn _ (enter_mem_demands.1 (hes e he))
    exact Nat.lt_of_succ_lt_succ hlt

/-- The selections that enter a slot. -/
def entered (ts : List Demand) : List Selection :=
  ts.filterMap fun
    | .take => none
    | .enter s => some s

theorem mem_entered {ts : List Demand} {s : Selection} : s ∈ entered ts ↔ .enter s ∈ ts := by
  rw [entered, List.mem_filterMap]
  constructor
  · rintro ⟨t, ht, hs⟩
    cases t with
    | take => simp at hs
    | enter s' =>
      cases hs
      exact ht
  · exact fun h => ⟨_, h, rfl⟩

theorem foldl_meet_missing (ts : List Demand) (slot : Option Value) :
    ts.foldl (meet .missing) slot = ((entered ts).map Demand.enter).foldl (meet .missing) slot := by
  induction ts generalizing slot with
  | nil => rfl
  | cons t ts ih =>
    cases t with
    | take => exact ih slot
    | enter s => exact ih _

theorem foldl_meet_missing_none {ts : List Demand} (h : entered ts ≠ []) :
    ts.foldl (meet .missing) none = some (.obj ((entered ts).foldl (select .missing) [])) := by
  rw [foldl_meet_missing, foldl_meet_enters_none _ h]
  exact congrArg some (foldl_enter_obj rfl [] (entered ts))

/-- An element of a copied array after a run. -/
def deepen (ss : List Selection) (item : Value) : Value :=
  within (ss.foldl (select (.of item))) item

theorem foldl_enter_emptyArr (items : List Value) {ss : List Selection} (h : ss ≠ []) :
    ss.foldl (enter (.sequence items)) (.arr []) = .arr (items.map (KeySpec.apply ⟨ss⟩)) := by
  rw [foldl_enter_arr items [] h, fanOut_nil]
  rfl

theorem foldl_enter_copiedArr (items : List Value) {ss : List Selection} (h : ss ≠ []) :
    ss.foldl (enter (.sequence items)) (.arr items) = .arr (items.map (deepen ss)) := by
  rw [foldl_enter_arr items items h, fanOut_self]
  rfl

/-! ### Demands that take -/

/-- Demands that take the value forget what was in the slot before. -/
theorem foldl_meet_of_take (v : Value) (slot : Option Value) {ts before : List Demand}
    {ss : List Selection} (hts : ts = before ++ Demand.take :: ss.map Demand.enter) :
    ts.foldl (meet (.of v)) slot = some (ss.foldl (enter (.of v)) v) := by
  have htake : meet (.of v) (before.foldl (meet (.of v)) slot) .take = some v := by
    rw [meet, Node.value?_of, Option.some_or]
  rw [hts, List.foldl_append, List.foldl_cons, htake, foldl_meet_enters]

/-- Selections that meet a copy in a slot enter the copy, also where they take it again. -/
theorem exists_entered_copy (v : Value) (ts : List Demand) :
    ∃ es : List Selection, (∀ e ∈ es, Demand.enter e ∈ ts) ∧
      ts.foldl (meet (.of v)) (some v) = some (es.foldl (enter (.of v)) v) := by
  rcases exists_enters ts with ⟨es, hts⟩ | ⟨before, es, hts⟩
  · refine ⟨es, fun e he => hts ▸ List.mem_map_of_mem he, ?_⟩
    rw [hts]
    exact foldl_meet_enters (.of v) v es
  · exact ⟨es, fun e he => by simp [hts, he], foldl_meet_of_take v (some v) hts⟩

/-- Demands that all take the value leave it, or, where there is none, what was in the slot. -/
theorem foldl_meet_takes (child : Node) (slot : Option Value) {ts : List Demand}
    (h : ∀ t ∈ ts, t = .take) (hne : ts ≠ []) :
    ts.foldl (meet child) slot = child.value?.or slot := by
  induction ts generalizing slot with
  | nil => exact absurd rfl hne
  | cons t ts ih =>
    obtain rfl := h t List.mem_cons_self
    rw [List.foldl_cons, meet]
    by_cases hts : ts = []
    · rw [hts, List.foldl_nil]
    · rw [ih _ (fun t ht => h t (List.mem_cons_of_mem _ ht)) hts, ← Option.or_assoc, Option.or_self]

theorem foldl_meet_takes_self (child : Node) {ts : List Demand} (h : ∀ t ∈ ts, t = .take) :
    ts.foldl (meet child) child.value? = child.value? := by
  by_cases hne : ts = []
  · rw [hne, List.foldl_nil]
  · rw [foldl_meet_takes child child.value? h hne, Option.or_self]

theorem foldl_meet_takes_none (child : Node) {ts : List Demand} (h : ∀ t ∈ ts, t = .take)
    (hne : ts ≠ []) : ts.foldl (meet child) none = child.value? := by
  rw [foldl_meet_takes child none h hne, Option.or_none]

end Excerpt.Projection
