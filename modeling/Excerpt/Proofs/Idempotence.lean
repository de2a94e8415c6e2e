import Excerpt.Proofs.Demands

/-!
# An excerpt is its own excerpt

The second run meets other data than the first: a container that a missing step left behind is a
value now, and what was a scalar or an array on the way is an object.

* `Settles` — a run over its own result ends there again, from nothing and from that result;
* `select_phantom` — a selection that found nothing finds its own containers;
* `settles` — every run settles, by induction over slots;
* `KeySpec.apply_apply` — taking excerpts is idempotent.
-/

namespace Excerpt.Projection

open Json

/-! ### Containers below what is missing -/

/-- The containers that selections leave where nothing is, are what each of them finds there. -/
theorem select_phantom {ss : List Selection} {s : Selection} (hs : s ∈ ss) :
    select (.mapping (ss.foldl (select .missing) [])) (ss.foldl (select .missing) []) s =
      ss.foldl (select .missing) [] := by
  obtain ⟨trajectory, terminal⟩ := s
  induction trajectory generalizing ss with
  | nil =>
    have hsorted : Entries.Sorted (ss.foldl (select .missing) []) :=
      sorted_foldl_select ss Entries.sorted_nil
    refine Entries.ext (sorted_select _ hsorted) hsorted fun key => ?_
    rw [get?_select]
    split
    · show ((Node.ofOption _).value?).or _ = _
      rw [Node.value?_ofOption, Option.or_self]
    · rfl
  | cons step rest ih =>
    have hsorted : Entries.Sorted (ss.foldl (select .missing) []) :=
      sorted_foldl_select ss Entries.sorted_nil
    refine Entries.ext (sorted_select _ hsorted) hsorted fun key => ?_
    rw [get?_select]
    split
    · next hkey =>
      have hmem : ⟨rest, terminal⟩ ∈ entered (demands key ss) :=
        mem_entered.2 (mem_demands.2 ⟨_, hs, hkey.symm, rfl⟩)
      have hslot : Entries.get? key (ss.foldl (select .missing) []) =
          some (.obj ((entered (demands key ss)).foldl (select .missing) [])) := by
        rw [get?_foldl_select]
        exact foldl_meet_missing_none (List.ne_nil_of_mem hmem)
      rw [Node.child, hslot]
      show some (Value.obj (select (.mapping _) _ ⟨rest, terminal⟩)) = _
      rw [ih hmem]
    · rfl

theorem meet_phantom {ts : List Demand} {t : Demand} (ht : t ∈ ts) :
    meet (.mapping ((entered ts).foldl (select .missing) []))
        (some (.obj ((entered ts).foldl (select .missing) []))) t =
      some (.obj ((entered ts).foldl (select .missing) [])) := by
  cases t with
  | take => rfl
  | enter s =>
    show some (Value.obj (select (.mapping _) _ s)) = _
    rw [select_phantom (mem_entered.2 ht)]

/-! ### Runs over their own result -/

/-- A run over its own result ends there again. -/
structure Settles (ss : List Selection) : Prop where
  /-- From nothing, if it came from nothing. -/
  nil : ∀ node : Node, node.Ordered →
    ss.foldl (select (.mapping (ss.foldl (select node) []))) [] = ss.foldl (select node) []
  /-- From that result, if it came from nothing. -/
  self : ∀ node : Node, node.Ordered →
    ss.foldl (select (.mapping (ss.foldl (select node) []))) (ss.foldl (select node) []) =
      ss.foldl (select node) []
  /-- From that result, if it came from a copy of the source. -/
  copy : ∀ entries : Entries Value, (Value.obj entries).Ordered →
    ss.foldl (select (.mapping (ss.foldl (select (.mapping entries)) entries)))
        (ss.foldl (select (.mapping entries)) entries) =
      ss.foldl (select (.mapping entries)) entries

section Slots

variable {ss : List Selection} (hset : Settles ss)

include hset

theorem Settles.deepen_apply {item : Value} (hi : item.Ordered) :
    deepen ss (KeySpec.apply ⟨ss⟩ item) = KeySpec.apply ⟨ss⟩ item :=
  congrArg Value.obj (hset.self _ (Node.ordered_of hi))

theorem Settles.apply_idem {item : Value} (hi : item.Ordered) :
    KeySpec.apply ⟨ss⟩ (KeySpec.apply ⟨ss⟩ item) = KeySpec.apply ⟨ss⟩ item :=
  congrArg Value.obj (hset.nil _ (Node.ordered_of hi))

theorem Settles.deepen_idem {item : Value} (hi : item.Ordered) :
    deepen ss (deepen ss item) = deepen ss item := by
  cases item with
  | obj entries => exact congrArg Value.obj (hset.copy entries hi)
  | null | bool | num | str | arr => rfl

theorem Settles.enter_emptySlot (hne : ss ≠ []) {child : Node} (hc : child.Ordered) {w : Value}
    (hw : ss.foldl (enter child) child.emptySlot = w) :
    ss.foldl (enter (.of w)) (Node.of w).emptySlot = w ∧ ss.foldl (enter (.of w)) w = w := by
  cases hq : child.isSequence with
  | true =>
    obtain ⟨items, rfl⟩ := child.exists_items hq
    have hi := Value.ordered_arr.1 (hc _ rfl)
    have hw : Value.arr (items.map (KeySpec.apply ⟨ss⟩)) = w := by
      rw [← hw]
      exact (foldl_enter_emptyArr items hne).symm
    subst hw
    constructor
    · refine (foldl_enter_emptyArr _ hne).trans ?_
      rw [List.map_map]
      exact congrArg Value.arr (List.map_congr_left fun item h => hset.apply_idem (hi item h))
    · refine (foldl_enter_copiedArr _ hne).trans ?_
      rw [List.map_map]
      exact congrArg Value.arr (List.map_congr_left fun item h => hset.deepen_apply (hi item h))
  | false =>
    rw [foldl_enter_emptySlot hq] at hw
    subst hw
    constructor
    · refine (foldl_enter_obj rfl [] ss).trans ?_
      exact congrArg Value.obj (hset.nil child hc)
    · refine (foldl_enter_obj rfl _ ss).trans ?_
      exact congrArg Value.obj (hset.self child hc)

theorem Settles.enter_copy {v : Value} (hv : v.Ordered) {w : Value}
    (hw : ss.foldl (enter (.of v)) v = w) : ss.foldl (enter (.of w)) w = w := by
  by_cases hne : ss = []
  · rw [hne]
    rfl
  cases v with
  | arr items =>
    have hw : Value.arr (items.map (deepen ss)) = w := by
      rw [← hw]
      exact (foldl_enter_copiedArr items hne).symm
    subst hw
    refine (foldl_enter_copiedArr _ hne).trans ?_
    rw [List.map_map]
    exact congrArg Value.arr
      (List.map_congr_left fun item h => hset.deepen_idem (Value.ordered_arr.1 hv item h))
  | obj entries =>
    have hw : Value.obj (ss.foldl (select (.mapping entries)) entries) = w := by
      rw [← hw]
      exact (foldl_enter_obj rfl entries ss).symm
    subst hw
    refine (foldl_enter_obj rfl _ ss).trans ?_
    exact congrArg Value.obj (hset.copy entries hv)
  | null | bool | num | str =>
    rw [foldl_enter_of_not_container (by simp) (by simp)] at hw
    subst hw
    exact foldl_enter_of_not_container (by simp) (by simp) ss

end Slots

/-! ### Slots over their own result -/

theorem meet_again_of_take {ts before : List Demand} {ss : List Selection} (hss : Settles ss)
    (hts : ts = before ++ Demand.take :: ss.map Demand.enter) {v : Value} (hv : v.Ordered)
    {start f : Option Value} (hf : ts.foldl (meet (.of v)) start = f) (slot : Option Value) :
    ts.foldl (meet (.ofOption f)) slot = f := by
  rw [foldl_meet_of_take v start hts] at hf
  subst hf
  rw [Node.ofOption, foldl_meet_of_take _ slot hts]
  exact congrArg some (hss.enter_copy hv rfl)

theorem foldl_meet_phantom {ts after : List Demand} (h : ∀ t ∈ after, t ∈ ts) :
    after.foldl (meet (.mapping ((entered ts).foldl (select .missing) [])))
        (some (.obj ((entered ts).foldl (select .missing) []))) =
      some (.obj ((entered ts).foldl (select .missing) [])) := by
  induction after with
  | nil => rfl
  | cons t after ih =>
    rw [List.foldl_cons, meet_phantom (h t List.mem_cons_self)]
    exact ih fun t ht => h t (List.mem_cons_of_mem _ ht)

/-- Where nothing was, the first run took nothing and the second takes the containers of the
first. -/
theorem meet_again_missing {ts before : List Demand} {ss : List Selection}
    (hts : ts = before ++ Demand.take :: ss.map Demand.enter) {f : Option Value}
    (hf : ts.foldl (meet .missing) none = f) :
    ts.foldl (meet (.ofOption f)) none = f ∧ ts.foldl (meet (.ofOption f)) f = f := by
  by_cases he : entered ts = []
  · have hnone : ts.foldl (meet .missing) none = none := by
      rw [foldl_meet_missing, he]
      rfl
    rw [hnone] at hf
    subst hf
    exact ⟨hnone, hnone⟩
  · rw [foldl_meet_missing_none he] at hf
    subst hf
    refine ⟨?_, foldl_meet_phantom fun t ht => ht⟩
    have hafter : ∀ t ∈ ss.map Demand.enter, t ∈ ts := fun t ht => by
      rw [hts]
      exact List.mem_append_right _ (List.mem_cons_of_mem _ ht)
    have hsplit : ∀ (child : Node) (slot : Option Value), ts.foldl (meet child) slot =
        (ss.map Demand.enter).foldl (meet child)
          (meet child (before.foldl (meet child) slot) .take) := fun child slot => by
      rw [hts, List.foldl_append, List.foldl_cons]
    exact (hsplit _ none).trans (foldl_meet_phantom hafter)

section Slot

variable {ts : List Demand}
  (hset : ∀ ss : List Selection, (∀ s ∈ ss, Demand.enter s ∈ ts) → Settles ss)

include hset

theorem meet_again_none {v? : Option Value} (hv : (Node.ofOption v?).Ordered) {f : Option Value}
    (hf : ts.foldl (meet (.ofOption v?)) none = f) :
    ts.foldl (meet (.ofOption f)) none = f ∧ ts.foldl (meet (.ofOption f)) f = f := by
  rcases exists_enters ts with ⟨ss, hts⟩ | ⟨before, ss, hts⟩
  · by_cases hne : ss = []
    · subst hne hts hf
      exact ⟨rfl, rfl⟩
    · have hss : Settles ss := hset ss fun s hs => hts ▸ List.mem_map_of_mem hs
      obtain ⟨hnone, hself⟩ := hss.enter_emptySlot hne hv rfl
      rw [hts, foldl_meet_enters_none _ hne] at hf
      subst hf
      rw [hts, foldl_meet_enters_none _ hne, foldl_meet_enters]
      exact ⟨congrArg some hnone, congrArg some hself⟩
  · cases v? with
    | none => exact meet_again_missing hts hf
    | some v =>
      have hss : Settles ss := hset ss fun s hs => by simp [hts, hs]
      have hagain := meet_again_of_take hss hts (hv v (Node.value?_of v)) hf
      exact ⟨hagain none, hagain f⟩

theorem meet_again_copy {v? : Option Value} (hv : (Node.ofOption v?).Ordered) {f : Option Value}
    (hf : ts.foldl (meet (.ofOption v?)) v? = f) : ts.foldl (meet (.ofOption f)) f = f := by
  cases v? with
  | none => exact (meet_again_none hset hv hf).2
  | some v =>
    have hvo := hv v (Node.value?_of v)
    rcases exists_enters ts with ⟨ss, hts⟩ | ⟨before, ss, hts⟩
    · have hss : Settles ss := hset ss fun s hs => hts ▸ List.mem_map_of_mem hs
      rw [hts, foldl_meet_enters] at hf
      subst hf
      rw [hts, foldl_meet_enters]
      exact congrArg some (hss.enter_copy hvo rfl)
    · have hss : Settles ss := hset ss fun s hs => by simp [hts, hs]
      exact meet_again_of_take hss hts hvo hf f

end Slot

/-- A run settles if what enters each slot does. -/
theorem settles_of_slots {ss : List Selection}
    (hset : ∀ key (es : List Selection), (∀ s ∈ es, Demand.enter s ∈ demands key ss) → Settles es) :
    Settles ss := by
  have hchild : ∀ (node : Node) (key : String), node.Ordered →
      (Node.ofOption (node.child key).value?).Ordered := fun node key hn => by
    rw [← Node.child_eq_ofOption]
    exact hn.child key
  constructor
  · intro node hn
    refine Entries.ext (sorted_foldl_select ss Entries.sorted_nil)
      (sorted_foldl_select ss Entries.sorted_nil) fun key => ?_
    rw [get?_foldl_select, Node.child]
    refine (meet_again_none (hset key) (hchild node key hn) ?_).1
    rw [← Node.child_eq_ofOption, get?_foldl_select]
    rfl
  · intro node hn
    have hs : Entries.Sorted (ss.foldl (select node) []) :=
      sorted_foldl_select ss Entries.sorted_nil
    refine Entries.ext (sorted_foldl_select ss hs) hs fun key => ?_
    rw [get?_foldl_select, Node.child]
    refine (meet_again_none (hset key) (hchild node key hn) ?_).2
    rw [← Node.child_eq_ofOption, get?_foldl_select]
    rfl
  · intro entries ho
    have hs : Entries.Sorted (ss.foldl (select (.mapping entries)) entries) :=
      sorted_foldl_select ss (Value.ordered_obj.1 ho).1
    refine Entries.ext (sorted_foldl_select ss hs) hs fun key => ?_
    rw [get?_foldl_select, Node.child]
    refine meet_again_copy (hset key) (hchild (.mapping entries) key (Node.ordered_of ho)) ?_
    rw [← Node.child_eq_ofOption, Node.child, Node.value?_ofOption, get?_foldl_select]
    rfl

theorem settles_nil : Settles [] := ⟨fun _ _ => rfl, fun _ _ => rfl, fun _ _ => rfl⟩

/-- **Every run settles.** -/
theorem settles (ss : List Selection) : Settles ss :=
  slot_induction settles_nil (fun _ hset => settles_of_slots hset) ss

end Excerpt.Projection

namespace Excerpt.KeySpec

open Json

/-- **Taking excerpts is idempotent.** -/
theorem apply_apply (ks : KeySpec) (d : Document) : ks.apply (ks.apply d) = ks.apply d :=
  congrArg Value.obj ((Projection.settles ks.selections).nil _ (Node.ordered_of d.ordered))

def objectInArrays : Document :=
  ⟨.obj [("a", .arr [.arr [.obj [("b", .null)]]])],
    by simp [Value.Ordered, Value.OrderedL, Value.OrderedE, Entries.Sorted]⟩

/-- The first run makes containers for the missing `q` and `r`, of which the second takes one, and an
object where the document has an array inside an array. -/
theorem apply_apply_phantom_and_nested_array :
    ∃ ks : KeySpec, ks.selections = [⟨["q", "r"], "s"⟩, ⟨["a", "0"], "b"⟩, ⟨["q"], "r"⟩] ∧
      ks.apply objectInArrays ≠ objectInArrays.root ∧
      ks.apply (ks.apply objectInArrays) = ks.apply objectInArrays :=
  ⟨⟨_⟩, rfl, by decide +kernel, apply_apply _ objectInArrays⟩

end Excerpt.KeySpec
