import Excerpt.Extraction
import Excerpt.Proofs.OnePass
import Excerpt.Proofs.Padding

/-!
# Copied values

A value that one selection takes stands in the excerpt as a copy. Selections behind it may enter the
copy, and leave containers there where a step of theirs is missing.

* `Value.Lacks` — an object in a value lacks a key;
* `Gained` — an object in a copy has a key that it lacks in the value;
* `gained_enter_iff` — what entering a copy adds to it and takes from it;
* `exists_get?_foldl_select` — what a run leaves of a copy;
* `KeySpec.get?_extract_of_mem` — a value that is taken is delivered, and when as it stands.
-/

namespace Excerpt

open Json

namespace Json.Value

/-- The objects that a selection enters in a value: the value itself, or its elements. -/
def objects : Value → List (Entries Value)
  | .obj es => [es]
  | .arr items => items.filterMap fun
      | .obj es => some es
      | _ => none
  | _ => []

/-- An object that a way leads to in a value lacks the key `step`. -/
def Lacks : (way : List String) → (step : String) → Value → Prop
  | [], step, v => ∃ es ∈ v.objects, Entries.get? step es = none
  | key :: way, step, v =>
    ∃ es ∈ v.objects, ∃ c, Entries.get? key es = some c ∧ Lacks way step c

end Json.Value

open Json.Value

namespace Projection

/-! ### What a copy gains -/

/-- Objects at one place of two values, where a selection enters both. -/
inductive Branch : Value → Value → Entries Value → Entries Value → Prop
  | self (es fs : Entries Value) : Branch (.obj es) (.obj fs) es fs
  | element {items branches : List Value} {i : Nat} {es fs : Entries Value} :
    items[i]? = some (.obj es) → branches[i]? = some (.obj fs) →
      Branch (.arr items) (.arr branches) es fs

/-- An object that a way leads to in `w` has a key that it lacks in `v`. -/
def Gained : (way : List String) → (step : String) → (v w : Value) → Prop
  | [], step, v, w => ∃ es fs, Branch v w es fs ∧
      Entries.get? step es = none ∧ Entries.get? step fs ≠ none
  | key :: way, step, v, w => ∃ es fs, Branch v w es fs ∧
      ∃ c b, Entries.get? key es = some c ∧ Entries.get? key fs = some b ∧ Gained way step c b

theorem mem_objects {v : Value} {es : Entries Value} :
    es ∈ v.objects ↔
      v = .obj es ∨
        ∃ (items : List Value) (i : Nat), v = .arr items ∧ items[i]? = some (.obj es) := by
  cases v with
  | obj fs => simp [objects, eq_comm]
  | arr items =>
    have hmem : es ∈ (Value.arr items).objects ↔ Value.obj es ∈ items := by
      rw [objects, List.mem_filterMap]
      constructor
      · rintro ⟨v, hv, hes⟩
        cases v with
        | obj fs =>
          cases hes
          exact hv
        | null | bool | num | str | arr => simp at hes
      · exact fun h => ⟨_, h, rfl⟩
    rw [hmem, List.mem_iff_getElem?]
    simp
  | null | bool | num | str => simp [objects]

section Branches

variable {v w : Value} {es fs : Entries Value}

theorem Branch.mem_objects (h : Branch v w es fs) : es ∈ v.objects := by
  cases h with
  | self => exact Projection.mem_objects.2 (.inl rfl)
  | element hi hb => exact Projection.mem_objects.2 (.inr ⟨_, _, rfl, hi⟩)

theorem exists_branch (h : Padded v w) (he : es ∈ v.objects) : ∃ fs, Branch v w es fs := by
  rcases mem_objects.1 he with rfl | ⟨items, i, rfl, hi⟩
  · obtain ⟨fs, rfl⟩ := exists_of_padded_obj h
    exact ⟨fs, .self es fs⟩
  · obtain ⟨branches, rfl, hb⟩ := padded_arr.1 h
    obtain ⟨branch, hbi, hp, -⟩ := hb.getElem? hi
    obtain ⟨fs, rfl⟩ := exists_of_padded_obj hp
    exact ⟨fs, .element hi hbi⟩

theorem Branch.padded (h : Padded v w) (hb : Branch v w es fs) : Padded (.obj es) (.obj fs) := by
  cases hb with
  | self => exact h
  | element hi hbi =>
    obtain ⟨_, heq, hbs⟩ := padded_arr.1 h
    cases heq
    obtain ⟨branch, hbi', hp, -⟩ := hbs.getElem? hi
    rw [hbi] at hbi'
    cases hbi'
    exact hp

theorem Branch.ordered (hv : v.Ordered) (hb : Branch v w es fs) : (Value.obj es).Ordered := by
  cases hb with
  | self => exact hv
  | element hi hbi => exact ordered_arr.1 hv _ (List.mem_of_getElem? hi)

theorem Branch.eq_of_self (h : Branch v v es fs) : fs = es := by
  cases h with
  | self => rfl
  | element hi hb =>
    rw [hi] at hb
    cases hb
    rfl

/-- A selection changes each object that it enters by itself. -/
theorem branch_enter (h : Padded v w) (s : Selection) {gs : Entries Value} :
    Branch v (enter (.of v) w s) es gs ↔
      ∃ fs, Branch v w es fs ∧ gs = select (.mapping es) fs s := by
  cases v with
  | obj es' =>
    obtain ⟨fs, rfl⟩ := exists_of_padded_obj h
    constructor
    · rintro ⟨⟩
      exact ⟨fs, .self es fs, rfl⟩
    · rintro ⟨_, ⟨⟩, rfl⟩
      exact .self es _
  | arr items =>
    obtain ⟨branches, rfl, hbs⟩ := padded_arr.1 h
    constructor
    · rintro ⟨⟩
      next i hi hb =>
      obtain ⟨branch, hbi, hp, -⟩ := hbs.getElem? hi
      obtain ⟨fs, rfl⟩ := exists_of_padded_obj hp
      rw [getElem?_fanOut, hi, hbi] at hb
      cases hb
      exact ⟨fs, .element hi hbi, rfl⟩
    · rintro ⟨fs, ⟨⟩, rfl⟩
      next i hi hb =>
      refine .element hi ?_
      rw [getElem?_fanOut, hi, hb]
      rfl
  | null | bool | num | str =>
    rw [eq_of_padded_scalar (by simp) (by simp) h]
    constructor
    · rintro ⟨⟩
    · rintro ⟨_, ⟨⟩, -⟩

end Branches

theorem not_gained_self (way : List String) (step : String) (v : Value) :
    ¬ Gained way step v v := by
  induction way generalizing v with
  | nil =>
    rintro ⟨es, fs, hb, hnone, hsome⟩
    rw [hb.eq_of_self] at hsome
    exact hsome hnone
  | cons key way ih =>
    rintro ⟨es, fs, hb, c, b, hc, hb', hg⟩
    rw [hb.eq_of_self, hc] at hb'
    cases hb'
    exact ih c hg

/-! ### One selection -/

section Slot

variable {node : Node} {output : Entries Value} {key : String} {v w : Value}

/-- **What a selection does to a copy in a slot**: nothing, or the value is taken again, or the copy
is entered. -/
theorem get?_select_copy (hv : (node.child key).value? = some v)
    (hw : Entries.get? key output = some w) (s : Selection) :
    ∃ w', Entries.get? key (select node output s) = some w' ∧
      (s.first ≠ key ∧ w' = w ∨ s = ⟨[], key⟩ ∧ w' = v ∨
        ∃ rest terminal, s = ⟨key :: rest, terminal⟩ ∧
          w' = enter (.of v) w ⟨rest, terminal⟩) := by
  have hchild : node.child key = .of v := by rw [node.child_eq_ofOption, hv]; rfl
  rw [get?_select, hw, hchild]
  by_cases hk : key = s.first
  · rw [if_pos hk]
    obtain ⟨trajectory, terminal⟩ := s
    cases trajectory with
    | nil =>
      obtain rfl : key = terminal := hk
      have htake : meet (.of v) (some w) .take = some v := by
        rw [meet, Node.value?_of, Option.some_or]
      exact ⟨v, htake, .inr (.inl ⟨rfl, rfl⟩)⟩
    | cons step rest =>
      obtain rfl : key = step := hk
      exact ⟨_, rfl, .inr (.inr ⟨rest, terminal, rfl, rfl⟩)⟩
  · rw [if_neg hk]
    exact ⟨w, rfl, .inl ⟨Ne.symm hk, rfl⟩⟩

theorem first_eq_of_path {s : Selection} {way : List String} (h : s.path <+: key :: way) :
    s.first = key := by
  obtain ⟨trajectory, terminal⟩ := s
  cases trajectory with
  | nil => exact (List.cons_prefix_cons.1 h).1
  | cons step rest => exact (List.cons_prefix_cons.1 h).1

theorem first_eq_of_trajectory {s : Selection} {way : List String} (h : s.trajectory = key :: way) :
    s.first = key := by
  rw [Selection.first, h]

/-- A container is gained below a slot where a selection enters behind a missing step, and lost
where a value around it is taken. -/
theorem gained_slot_iff {way : List String} {step : String}
    (hv : (node.child key).value? = some v) (hw : Entries.get? key output = some w)
    (henter : ∀ s, Gained way step v (enter (.of v) w s) ↔
      (∃ rest, s.trajectory = way ++ step :: rest) ∧ v.Lacks way step ∨
        Gained way step v w ∧ ¬ s.path <+: way)
    {s : Selection} {w' : Value} (hw' : Entries.get? key (select node output s) = some w') :
    Gained way step v w' ↔
      (∃ rest, s.trajectory = key :: way ++ step :: rest) ∧ v.Lacks way step ∨
        Gained way step v w ∧ ¬ s.path <+: key :: way := by
  obtain ⟨u, hu, hcases⟩ := get?_select_copy hv hw s
  rw [hw'] at hu
  cases hu
  rcases hcases with ⟨hfirst, rfl⟩ | ⟨rfl, rfl⟩ | ⟨rest, terminal, rfl, rfl⟩
  · constructor
    · exact fun hg => .inr ⟨hg, fun hpre => hfirst (first_eq_of_path hpre)⟩
    · rintro (⟨⟨rest, htrajectory⟩, -⟩ | ⟨hg, -⟩)
      · exact absurd (first_eq_of_trajectory htrajectory) hfirst
      · exact hg
  · have htaken : (⟨[], key⟩ : Selection).path <+: key :: way :=
      List.cons_prefix_cons.2 ⟨rfl, List.nil_prefix⟩
    constructor
    · exact fun hg => absurd hg (not_gained_self way step _)
    · rintro (⟨⟨rest, htrajectory⟩, -⟩ | ⟨-, hnot⟩)
      · cases htrajectory
      · exact absurd htaken hnot
  · have hpath : (⟨key :: rest, terminal⟩ : Selection).path <+: key :: way ↔
        (⟨rest, terminal⟩ : Selection).path <+: way := by
      constructor
      · exact fun h => (List.cons_prefix_cons.1 h).2
      · exact fun h => List.cons_prefix_cons.2 ⟨rfl, h⟩
    have htrajectory : ∀ r : List String,
        key :: rest = key :: way ++ step :: r ↔ rest = way ++ step :: r := fun r => by simp
    rw [henter, hpath]
    simp only [htrajectory]

end Slot

/-- In an object that lacks a step, a selection creates it just if it goes there. -/
theorem get?_select_of_lacks {es : Entries Value} {step : String}
    (h : Entries.get? step es = none) (fs : Entries Value) (s : Selection) :
    Entries.get? step (select (.mapping es) fs s) ≠ none ↔
      (∃ rest, s.trajectory = step :: rest) ∨ Entries.get? step fs ≠ none := by
  obtain ⟨trajectory, terminal⟩ := s
  rw [get?_select, Node.child, h]
  cases trajectory with
  | nil =>
    have hkept : meet (.ofOption none) (Entries.get? step fs) .take = Entries.get? step fs := rfl
    simp [Selection.demand, hkept]
  | cons first rest =>
    by_cases hk : step = first
    · subst hk
      simp [Selection.first, Selection.demand, meet]
    · simp [Selection.first, hk, Ne.symm hk]

theorem Branch.exists_slot {v w c : Value} {es fs : Entries Value} {key : String}
    (hb : Branch v w es fs) (hv : v.Ordered) (h : Padded v w)
    (hc : Entries.get? key es = some c) :
    ∃ b, Entries.get? key fs = some b ∧ c.Ordered ∧ Padded c b := by
  obtain ⟨hs, ho⟩ := ordered_obj.1 (hb.ordered hv)
  have hkey := ((padded_obj hs).1 (hb.padded h)).2 key
  rw [hc] at hkey
  cases hb' : Entries.get? key fs with
  | none => simp [hb', PaddedSlot] at hkey
  | some b =>
    rw [hb'] at hkey
    exact ⟨b, rfl, ho _ (Entries.mem_of_get? hc), hkey⟩

theorem gained_nil_enter_iff {v w : Value} (h : Padded v w) (s : Selection) (step : String) :
    Gained [] step v (enter (.of v) w s) ↔
      (∃ rest, s.trajectory = step :: rest) ∧ v.Lacks [] step ∨ Gained [] step v w := by
  constructor
  · rintro ⟨es, gs, hgs, hnone, hsome⟩
    obtain ⟨fs, hb, rfl⟩ := (branch_enter h s).1 hgs
    rcases (get?_select_of_lacks hnone fs s).1 hsome with hgoes | hsome
    · exact .inl ⟨hgoes, es, hb.mem_objects, hnone⟩
    · exact .inr ⟨es, fs, hb, hnone, hsome⟩
  · rintro (⟨hgoes, es, he, hnone⟩ | ⟨es, fs, hb, hnone, hsome⟩)
    · obtain ⟨fs, hb⟩ := exists_branch h he
      exact ⟨es, _, (branch_enter h s).2 ⟨fs, hb, rfl⟩, hnone,
        (get?_select_of_lacks hnone fs s).2 (.inl hgoes)⟩
    · exact ⟨es, _, (branch_enter h s).2 ⟨fs, hb, rfl⟩, hnone,
        (get?_select_of_lacks hnone fs s).2 (.inr hsome)⟩

section Entered

variable {way : List String} {step : String}
  (hbelow : ∀ {c b : Value}, c.Ordered → Padded c b → ∀ s : Selection,
    Gained way step c (enter (.of c) b s) ↔
      (∃ rest, s.trajectory = way ++ step :: rest) ∧ c.Lacks way step ∨
        Gained way step c b ∧ ¬ s.path <+: way)

include hbelow

/-- In an object that is entered a key that the value has keeps its slot. -/
theorem Branch.exists_gained_slot_iff {v w c : Value} {es fs : Entries Value} {key : String}
    (hb : Branch v w es fs) (hv : v.Ordered) (h : Padded v w) (s : Selection)
    (hc : Entries.get? key es = some c) :
    ∃ b b', Entries.get? key fs = some b ∧
      Entries.get? key (select (.mapping es) fs s) = some b' ∧
      (Gained way step c b' ↔
        (∃ rest, s.trajectory = key :: way ++ step :: rest) ∧ c.Lacks way step ∨
          Gained way step c b ∧ ¬ s.path <+: key :: way) := by
  obtain ⟨b, hcb, hco, hp⟩ := hb.exists_slot hv h hc
  have hchild : ((Node.mapping es).child key).value? = some c := by
    rw [Node.child, Node.value?_ofOption, hc]
  obtain ⟨b', hb', -⟩ := get?_select_copy hchild hcb s
  exact ⟨b, b', hcb, hb', gained_slot_iff hchild hcb (hbelow hco hp) hb'⟩

theorem gained_cons_enter_iff {v w : Value} (hv : v.Ordered) (h : Padded v w) (s : Selection)
    (key : String) :
    Gained (key :: way) step v (enter (.of v) w s) ↔
      (∃ rest, s.trajectory = key :: way ++ step :: rest) ∧ v.Lacks (key :: way) step ∨
        Gained (key :: way) step v w ∧ ¬ s.path <+: key :: way := by
  constructor
  · rintro ⟨es, gs, hgs, c, b', hc, hb', hg⟩
    obtain ⟨fs, hb, rfl⟩ := (branch_enter h s).1 hgs
    obtain ⟨b, b'', hcb, hcb', hiff⟩ := hb.exists_gained_slot_iff hbelow hv h s hc
    rw [hb'] at hcb'
    cases hcb'
    rcases hiff.1 hg with ⟨hgoes, hlacks⟩ | ⟨hg, hnot⟩
    · exact .inl ⟨hgoes, es, hb.mem_objects, c, hc, hlacks⟩
    · exact .inr ⟨⟨es, fs, hb, c, b, hc, hcb, hg⟩, hnot⟩
  · rintro (⟨hgoes, es, he, c, hc, hlacks⟩ | ⟨⟨es, fs, hb, c, b, hc, hcb, hg⟩, hnot⟩)
    · obtain ⟨fs, hb⟩ := exists_branch h he
      obtain ⟨b, b', hcb, hcb', hiff⟩ := hb.exists_gained_slot_iff hbelow hv h s hc
      exact ⟨es, _, (branch_enter h s).2 ⟨fs, hb, rfl⟩, c, b', hc, hcb',
        hiff.2 (.inl ⟨hgoes, hlacks⟩)⟩
    · obtain ⟨_, b', hcb'', hcb', hiff⟩ := hb.exists_gained_slot_iff hbelow hv h s hc
      rw [hcb] at hcb''
      cases hcb''
      exact ⟨es, _, (branch_enter h s).2 ⟨fs, hb, rfl⟩, c, b', hc, hcb',
        hiff.2 (.inr ⟨hg, hnot⟩)⟩

end Entered

/-- **What entering a copy gains.** -/
theorem gained_enter_iff {v w : Value} (hv : v.Ordered) (h : Padded v w) (s : Selection)
    (way : List String) (step : String) :
    Gained way step v (enter (.of v) w s) ↔
      (∃ rest, s.trajectory = way ++ step :: rest) ∧ v.Lacks way step ∨
        Gained way step v w ∧ ¬ s.path <+: way := by
  induction way generalizing v w s with
  | nil =>
    have hpath : ¬ s.path <+: [] := fun hpre => s.path_ne_nil (List.prefix_nil.1 hpre)
    rw [gained_nil_enter_iff h, and_iff_left hpath]
    rfl
  | cons key way ih => exact gained_cons_enter_iff ih hv h s key

/-! ### Many selections -/

/-- The containers that selections leave in a copy below a key: created behind a missing step, and
not lost to a selection behind that takes a value around them. -/
def LeavesBehind (key : String) (v : Value) (ss : List Selection) (way : List String)
    (step : String) : Prop :=
  ∃ s after, s :: after <:+ ss ∧ (∃ rest, s.trajectory = key :: way ++ step :: rest) ∧
    v.Lacks way step ∧ ∀ t ∈ after, ¬ t.path <+: key :: way

theorem leavesBehind_cons {key : String} {v : Value} {s : Selection} {ss : List Selection}
    {way : List String} {step : String} :
    LeavesBehind key v (s :: ss) way step ↔
      ((∃ rest, s.trajectory = key :: way ++ step :: rest) ∧ v.Lacks way step ∧
        ∀ t ∈ ss, ¬ t.path <+: key :: way) ∨ LeavesBehind key v ss way step := by
  constructor
  · rintro ⟨s', after, hsuffix, hgoes, hlacks, hnot⟩
    rcases List.suffix_cons_iff.1 hsuffix with heq | hsuffix
    · obtain ⟨rfl, rfl⟩ := List.cons.inj heq
      exact .inl ⟨hgoes, hlacks, hnot⟩
    · exact .inr ⟨s', after, hsuffix, hgoes, hlacks, hnot⟩
  · rintro (⟨hgoes, hlacks, hnot⟩ | ⟨s', after, hsuffix, hgoes, hlacks, hnot⟩)
    · exact ⟨s, ss, List.suffix_refl _, hgoes, hlacks, hnot⟩
    · exact ⟨s', after, hsuffix.trans (List.suffix_cons s ss), hgoes, hlacks, hnot⟩

section Run

variable {node : Node} {key : String} {v : Value} (hv : (node.child key).value? = some v)
  (ho : v.Ordered)

include hv ho

/-- One selection keeps a padded copy in its slot. -/
theorem exists_get?_select {output : Entries Value} {w : Value}
    (hw : Entries.get? key output = some w) (hp : Padded v w) (s : Selection) :
    ∃ w', Entries.get? key (select node output s) = some w' ∧ Padded v w' := by
  obtain ⟨w', hw', ⟨-, rfl⟩ | ⟨-, rfl⟩ | ⟨rest, terminal, -, rfl⟩⟩ := get?_select_copy hv hw s
  · exact ⟨_, hw', hp⟩
  · exact ⟨_, hw', padded_self _ ho⟩
  · exact ⟨_, hw', padded_enter ho hp _⟩

/-- **What a run leaves of a copy.** -/
theorem exists_get?_foldl_select {output : Entries Value} {w : Value}
    (hw : Entries.get? key output = some w) (hp : Padded v w) (ss : List Selection) :
    ∃ w', Entries.get? key (ss.foldl (select node) output) = some w' ∧ Padded v w' ∧
      ∀ way step, Gained way step v w' ↔ LeavesBehind key v ss way step ∨
        Gained way step v w ∧ ∀ t ∈ ss, ¬ t.path <+: key :: way := by
  induction ss generalizing output w with
  | nil =>
    refine ⟨w, hw, hp, fun way step => ?_⟩
    simp [LeavesBehind]
  | cons s ss ih =>
    obtain ⟨w₁, hw₁, hp₁⟩ := exists_get?_select hv ho hw hp s
    obtain ⟨w₂, hw₂, hp₂, hgained⟩ := ih hw₁ hp₁
    refine ⟨w₂, hw₂, hp₂, fun way step => ?_⟩
    have hone := gained_slot_iff hv hw (fun s => gained_enter_iff ho hp s way step) hw₁
    rw [hgained, hone, leavesBehind_cons, List.forall_mem_cons, or_and_right, and_assoc, and_assoc,
      or_assoc]
    exact or_left_comm

end Run

/-! ### Copies that gained nothing -/

theorem gained_element {items branches : List Value} {i : Nat} {es fs : Entries Value}
    (hi : items[i]? = some (.obj es)) (hb : branches[i]? = some (.obj fs)) {way : List String}
    {step : String} (h : Gained way step (.obj es) (.obj fs)) :
    Gained way step (.arr items) (.arr branches) := by
  cases way with
  | nil =>
    obtain ⟨_, _, ⟨⟩, hrest⟩ := h
    exact ⟨es, fs, .element hi hb, hrest⟩
  | cons key way =>
    obtain ⟨_, _, ⟨⟩, hrest⟩ := h
    exact ⟨es, fs, .element hi hb, hrest⟩

mutual

/-- A padded value in which nothing was gained is the value. -/
theorem eq_of_not_gained : (v : Value) → v.Ordered → ∀ w, Padded v w →
    (∀ way step, ¬ Gained way step v w) → w = v
  | .null, _, w, h, _ | .bool _, _, w, h, _ | .num _, _, w, h, _ | .str _, _, w, h, _ =>
    eq_of_padded_scalar (by simp) (by simp) h
  | .arr items, ho, w, h, hnot => by
    obtain ⟨branches, rfl, hb⟩ := padded_arr.1 h
    refine congrArg Value.arr (List.ext_getElem? fun i => ?_)
    cases hi : items[i]? with
    | none =>
      have hlen := List.getElem?_eq_none_iff.1 hi
      exact List.getElem?_eq_none_iff.2 (hb.length_eq ▸ hlen)
    | some item =>
      obtain ⟨branch, hbi, hp, ha⟩ := hb.getElem? hi
      have hitem := eq_of_not_gained_of_mem_items items (ordered_arr.1 ho) item
        (List.mem_of_getElem? hi)
      rw [hbi]
      cases item with
      | obj es =>
        obtain ⟨fs, rfl⟩ := exists_of_padded_obj hp
        exact congrArg some (hitem _ hp fun way step hg =>
          hnot way step (gained_element hi hbi hg))
      | arr vs => rw [ha vs rfl]
      | null | bool | num | str => rw [eq_of_padded_scalar (by simp) (by simp) hp]
  | .obj es, ho, w, h, hnot => by
    obtain ⟨hs, hes⟩ := ordered_obj.1 ho
    obtain ⟨fs, rfl⟩ := exists_of_padded_obj h
    obtain ⟨hfs, hslot⟩ := (padded_obj hs).1 h
    refine congrArg Value.obj (Entries.ext hfs hs fun key => ?_)
    have hkey := hslot key
    cases hv : Entries.get? key es with
    | none =>
      refine Decidable.byContradiction fun hsome => hnot [] key ⟨es, fs, .self es fs, hv, hsome⟩
    | some v =>
      rw [hv] at hkey
      cases hw : Entries.get? key fs with
      | none => simp [hw, PaddedSlot] at hkey
      | some w =>
        rw [hw] at hkey
        have hvalue := eq_of_not_gained_of_mem es hes _ (Entries.mem_of_get? hv)
        exact congrArg some (hvalue w hkey fun way step hg =>
          hnot (key :: way) step ⟨es, fs, .self es fs, v, w, hv, hw, hg⟩)

theorem eq_of_not_gained_of_mem_items : (items : List Value) → (∀ v ∈ items, v.Ordered) →
    ∀ v ∈ items, ∀ w, Padded v w → (∀ way step, ¬ Gained way step v w) → w = v
  | [], _, _, hm, _, _, _ => absurd hm List.not_mem_nil
  | item :: items, ho, v, hm, w, h, hnot => by
    have ho := List.forall_mem_cons.1 ho
    rcases List.mem_cons.1 hm with heq | hm
    · obtain rfl : item = v := heq.symm
      exact eq_of_not_gained item ho.1 w h hnot
    · exact eq_of_not_gained_of_mem_items items ho.2 v hm w h hnot

theorem eq_of_not_gained_of_mem : (es : List (String × Value)) → (∀ e ∈ es, e.2.Ordered) →
    ∀ e ∈ es, ∀ w, Padded e.2 w → (∀ way step, ¬ Gained way step e.2 w) → w = e.2
  | [], _, _, hm, _, _, _ => absurd hm List.not_mem_nil
  | (_, v) :: es, ho, e, hm, w, h, hnot => by
    have ho := List.forall_mem_cons.1 ho
    rcases List.mem_cons.1 hm with rfl | hm
    · exact eq_of_not_gained v ho.1 w h hnot
    · exact eq_of_not_gained_of_mem es ho.2 e hm w h hnot

end

/-- A copy stands as it was taken just if nothing was gained. -/
theorem eq_iff_not_gained {v w : Value} (hv : v.Ordered) (h : Padded v w) :
    w = v ↔ ∀ way step, ¬ Gained way step v w := by
  constructor
  · rintro rfl way step
    exact not_gained_self way step _
  · exact eq_of_not_gained v hv w h

/-- **What is left of a value that is taken.** -/
theorem exists_get?_of_suffix {node : Node} {key : String} {v : Value}
    (hv : (node.child key).value? = some v) (ho : v.Ordered) {ss after : List Selection}
    (hss : ⟨[], key⟩ :: after <:+ ss) (output : Entries Value) :
    ∃ w, Entries.get? key (ss.foldl (select node) output) = some w ∧ Padded v w ∧
      (w = v ↔ ∀ way step, ¬ LeavesBehind key v after way step) := by
  obtain ⟨before, rfl⟩ := hss
  have htaken : Entries.get? key (select node (before.foldl (select node) output) ⟨[], key⟩) =
      some v := by
    rw [select, project_nil, hv]
    exact Entries.get?_put_self key v _
  obtain ⟨w, hw, hp, hgained⟩ := exists_get?_foldl_select hv ho htaken (padded_self v ho) after
  have hiff : ∀ way step, Gained way step v w ↔ LeavesBehind key v after way step := by
    intro way step
    rw [hgained]
    simp [not_gained_self]
  refine ⟨w, ?_, hp, ?_⟩
  · rw [List.foldl_append, List.foldl_cons, hw]
  · rw [eq_iff_not_gained ho hp]
    simp only [hiff]

end Projection

namespace KeySpec

open Projection

/-- **A value that is taken is delivered**, with hollow objects added at most. It is delivered as it
stands in the document just if no selection behind it leaves a container in it. -/
theorem get?_extract_of_mem (o : Options) (d : Document) {spec : String} {ks : KeySpec}
    (hp : KeySpec.parse o spec = .ok ks) {key : String} (hk : ⟨[], key⟩ ∈ ks.selections) {v : Value}
    (hv : ((Node.of d.root).child key).value? = some v) :
    ∃ entries w, extract o d spec = .ok (.obj entries) ∧ Entries.get? key entries = some w ∧
      v.Padded w ∧ ∀ after, ⟨[], key⟩ :: after <:+ ks.selections →
        (w = v ↔ ∀ way step, ¬ LeavesBehind key v after way step) := by
  have ho : v.Ordered := (Node.ordered_of d.ordered).child key v hv
  obtain ⟨before, after, hks⟩ := List.append_of_mem hk
  obtain ⟨w, hw, hpad, -⟩ := exists_get?_of_suffix hv ho ⟨before, hks.symm⟩ []
  refine ⟨ks.excerpt (.of d), w, extract_eq_ok hp d, hw, hpad, fun after hafter => ?_⟩
  obtain ⟨w', hw', -, hiff⟩ := exists_get?_of_suffix hv ho hafter []
  rw [hw] at hw'
  cases hw'
  exact hiff

/-- An object without entries, inside an object in an array. -/
def innermostEmpty : Value := .arr [.obj [("b", .obj [])]]

/-- The selection `a.b.c.e` leaves the container `c` in the copy, and `a.b` takes the value around
it again. -/
theorem get?_extract_of_mem_taken_again :
    ∃ (d : Document) (ks : KeySpec) (after : List Selection), d.root = .obj [("a", innermostEmpty)] ∧
      KeySpec.parse .default "a,a.b.c.e,a.b" = .ok ks ∧ ⟨[], "a"⟩ :: after <:+ ks.selections ∧
      ((Node.of d.root).child "a").value? = some innermostEmpty ∧
      (∀ way step, ¬ LeavesBehind "a" innermostEmpty after way step) ∧
      ∃ entries, extract .default d "a,a.b.c.e,a.b" = .ok (.obj entries) ∧
        Entries.get? "a" entries = some innermostEmpty := by
  let d : Document := ⟨.obj [("a", innermostEmpty)],
    by simp [innermostEmpty, Value.Ordered, Value.OrderedE, Entries.Sorted]⟩
  have hp : KeySpec.parse .default "a,a.b.c.e,a.b" =
      .ok ⟨[⟨[], "a"⟩, ⟨["a", "b", "c"], "e"⟩, ⟨["a"], "b"⟩]⟩ := by
    rw [Spec.parse_eq_run]
    rfl
  obtain ⟨entries, w, hx, hw, -, hiff⟩ := get?_extract_of_mem .default d hp List.mem_cons_self rfl
  have hsame : w = innermostEmpty := by
    rw [extract_eq_ok hp] at hx
    cases hx
    exact Option.some.inj (hw.symm.trans (by decide +kernel))
  have hsuffix := List.suffix_refl [⟨[], "a"⟩, ⟨["a", "b", "c"], "e"⟩, (⟨["a"], "b"⟩ : Selection)]
  exact ⟨d, _, _, rfl, hp, hsuffix, rfl, (hiff _ hsuffix).1 hsame, entries, hx, hsame ▸ hw⟩

/-- An empty object inside an object. -/
def emptyInside : Document :=
  ⟨.obj [("a", .obj [])], by simp [Value.Ordered, Value.OrderedE, Entries.Sorted]⟩

/-- A value that is taken need not be delivered as it stands in the document: the selection `a.b.c`
leaves a container in the copy of the empty object `a`. -/
theorem copy_gains_container :
    KeySpec.parse .default "a,a.b.c" = .ok ⟨[⟨[], "a"⟩, ⟨["a", "b"], "c"⟩]⟩ ∧
    ((Node.of emptyInside.root).child "a").value? = some (.obj []) ∧
    extract .default emptyInside "a,a.b.c" = .ok (.obj [("a", .obj [("b", .obj [])])]) ∧
    ¬ ∃ entries, extract .default emptyInside "a,a.b.c" = .ok (.obj entries) ∧
      Entries.get? "a" entries = some (.obj []) := by
  have hp : KeySpec.parse .default "a,a.b.c" = .ok ⟨[⟨[], "a"⟩, ⟨["a", "b"], "c"⟩]⟩ := by
    rw [Spec.parse_eq_run]
    rfl
  have hx : extract .default emptyInside "a,a.b.c" =
      .ok (.obj [("a", .obj [("b", .obj [])])]) := extract_eq_ok hp _
  refine ⟨hp, rfl, hx, ?_⟩
  rintro ⟨entries, heq, hget⟩
  rw [hx] at heq
  cases heq
  exact absurd hget (by decide)

end KeySpec

end Excerpt
