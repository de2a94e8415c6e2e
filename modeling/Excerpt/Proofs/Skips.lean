import Excerpt.Proofs.Demands
import Excerpt.Proofs.Places

/-!
# Where a selection is not followed

A selection is not followed where the output holds a copy that has no entries. Nothing else stops
it: at a sequence the output has an array, and the array has a branch for every index.

* `visit?`, `projectByIndex?` — projection that looks branches up by their index, and has no result
  where there is none;
* `projectByIndex?_eq` — it has the result of projection;
* `Skipped`, `skipped_of_mem_skips` — what is skipped behind a first step;
* `slotNotArray_not_mem_skips` — an output in step with its source has arrays at sequences;
* `exists_mem_skips_of_enters` — a container that selections only enter is gone into;
* `exists_prefix_of_mem_skips` — a skip is caused by an earlier selection that ends on the way;
* `KeySpec.excerpt_lockstep` — what an excerpt holds, and what the next selection meets there.
-/

namespace Excerpt.Projection

open Json

/-! ### Branches by index -/

/-- Change the branch of an item, looked up by the index of the item. Where the branches end before
that index an empty object is added behind them. -/
def visit? (f : Value → Value → Option Value) (branches : List Value) (element : Value × Nat) :
    Option (List Value) := do
  let branches := if branches.length ≤ element.2 then branches ++ [.emptyObj] else branches
  let branch ← branches[element.2]?
  let changed ← f element.1 branch
  return branches.set element.2 changed

/-- Change the entries of an object if there is a result; leave every other value alone. -/
def within? (f : Entries Value → Option (Entries Value)) : Value → Option Value
  | .obj entries => (f entries).map .obj
  | v => some v

/-- Project a selection, with the branches looked up by index. There is no result if an index is out
of range. -/
def projectByIndex? : (trajectory : List String) → (key : String) → Node → Entries Value →
    Option (Entries Value)
  | [], key, source, output => some (project [] key source output)
  | step :: rest, key, source, output =>
    let child := source.child step
    let changed? :=
      match child, slot child step output with
      | .sequence items, .arr branches =>
        (items.zipIdx.foldlM (visit? fun item => within? (projectByIndex? rest key (.of item)))
          branches).map Value.arr
      | .sequence _, other => some other
      | child, other => within? (projectByIndex? rest key child) other
    changed?.map fun changed => Entries.put step changed output

theorem within?_some (f : Entries Value → Entries Value) :
    within? (fun es => some (f es)) = fun v => some (within f v) := by
  funext v
  cases v <;> rfl

/-- One branch: the index is that of the next branch, or of the one that is added. -/
theorem visit?_append (f : Value → Value → Value) (item : Value) (done branches : List Value) :
    visit? (fun item branch => some (f item branch)) (done ++ branches) (item, done.length) =
      some (done ++ f item (branches.head?.getD .emptyObj) :: branches.tail) := by
  unfold visit?
  cases branches with
  | nil => simp
  | cons branch branches =>
    have hin : ¬(done ++ branch :: branches).length ≤ done.length := by simp
    simp only [if_neg hin]
    simp

/-- **The index is in range for every item**, however many branches there are. -/
theorem foldlM_visit? (f : Value → Value → Value) (items done branches : List Value) :
    (items.zipIdx done.length).foldlM (visit? fun item branch => some (f item branch))
      (done ++ branches) = some (done ++ fanOut f items branches) := by
  -- the branches of the items before are done, and the index is how many they are
  induction items generalizing done branches with
  | nil => rfl
  | cons item items ih =>
    rw [List.zipIdx_cons, List.foldlM_cons, visit?_append]
    have hrest := ih (done ++ [f item (branches.head?.getD .emptyObj)]) branches.tail
    rw [List.length_append, List.append_assoc, List.append_assoc] at hrest
    have hfan : fanOut f (item :: items) branches =
        f item (branches.head?.getD .emptyObj) :: fanOut f items branches.tail := by
      cases branches <;> rfl
    rw [hfan]
    exact hrest

/-- **Looking branches up by their index gives the same.** -/
theorem projectByIndex?_eq (trajectory : List String) (key : String) :
    projectByIndex? trajectory key =
      fun source output => some (project trajectory key source output) := by
  induction trajectory with
  | nil => rfl
  | cons step rest ih =>
    funext source output
    rw [projectByIndex?, project_cons, ih]
    cases hchild : source.child step with
    | sequence items =>
      cases hslot : slot (.sequence items) step output with
      | arr branches =>
        have hloop := foldlM_visit? (fun item => within (project rest key (.of item))) items []
          branches
        simp only [within?_some]
        exact congrArg (fun r => (r.map Value.arr).map fun c => Entries.put step c output) hloop
      | null | bool | num | str | obj => rfl
    | missing | scalar | mapping =>
      simp only [within?_some]
      rfl

/-! ### What is skipped -/

/-- How a selection comes not to be followed behind a first step: its slot, or an element of it, is
of another kind, or a place further on is. -/
inductive Skipped (step : String) (rest : List String) (key : String) : Node → Value → Skip → Prop
  /-- Further on, in the branch of an item. -/
  | inElement {items branches : List Value} {i : Nat} {item : Value} {entries : Entries Value}
    {skip : Skip} (item_at : items[i]? = some item)
    (branch_at : branches[i]?.getD .emptyObj = .obj entries)
    (below : skip ∈ skips rest key (.of item) entries) :
    Skipped step rest key (.sequence items) (.arr branches) skip
  /-- Further on, in the slot. -/
  | inSlot {child : Node} {entries : Entries Value} {skip : Skip}
    (not_sequence : child.isSequence = false) (below : skip ∈ skips rest key child entries) :
    Skipped step rest key child (.obj entries) skip
  | elementNotMapping {items branches : List Value} {i : Nat} {item : Value}
    (item_at : items[i]? = some item)
    (not_mapping : ∀ entries, branches[i]?.getD .emptyObj ≠ .obj entries) :
    Skipped step rest key (.sequence items) (.arr branches) (.elementNotMapping step i key)
  | slotNotArray {items : List Value} {slot : Value}
    (not_array : ∀ branches, slot ≠ .arr branches) :
    Skipped step rest key (.sequence items) slot (.slotNotArray step key)
  | slotNotMapping {child : Node} {slot : Value} (not_sequence : child.isSequence = false)
    (not_mapping : ∀ entries, slot ≠ .obj entries) :
    Skipped step rest key child slot (.slotNotMapping step key)

/-- What is noted at the branches is noted at one of them. -/
theorem exists_of_mem_descendAll {f : Nat → Value → Value → Value × List Skip} {skip : Skip} {i : Nat}
    {items branches : List Value} (h : skip ∈ (descendAll f i items branches).2) :
    ∃ j item, items[j]? = some item ∧
      skip ∈ (f (i + j) item (branches[j]?.getD .emptyObj)).2 := by
  induction items generalizing i branches with
  | nil => exact absurd h List.not_mem_nil
  | cons item items ih =>
    rcases List.mem_append.1 h with h | h
    · exact ⟨0, item, rfl, by rwa [← List.head?_eq_getElem?]⟩
    · obtain ⟨j, item, hitem, h⟩ := ih h
      refine ⟨j + 1, item, hitem, ?_⟩
      rwa [List.getElem?_tail, Nat.add_right_comm] at h

theorem skipped_of_mem_skips {step key : String} {rest : List String} {source : Node}
    {output : Entries Value} {skip : Skip} (h : skip ∈ skips (step :: rest) key source output) :
    Skipped step rest key (source.child step) (slot (source.child step) step output) skip := by
  rw [skips, pass] at h
  generalize source.child step = child at h ⊢
  generalize slot child step output = slot at h ⊢
  cases hc : child.isSequence with
  | true =>
    obtain ⟨items, rfl⟩ := child.exists_items hc
    cases slot with
    | arr branches =>
      obtain ⟨i, item, hitem, h⟩ := exists_of_mem_descendAll h
      rw [Nat.zero_add] at h
      cases hb : branches[i]?.getD .emptyObj with
      | obj entries =>
        rw [hb] at h
        exact .inElement hitem hb h
      | null | bool | num | str | arr =>
        rw [hb] at h
        rw [List.mem_singleton.1 h]
        exact .elementNotMapping hitem (by simp [hb])
    | null | bool | num | str | obj =>
      rw [List.mem_singleton.1 h]
      exact .slotNotArray (by simp)
  | false =>
    have h : skip ∈ (descend (pass rest key child) (.slotNotMapping step key) slot).2 := by
      cases child with
      | sequence items => cases hc
      | missing | scalar | mapping => exact h
    cases slot with
    | obj entries => exact .inSlot hc h
    | null | bool | num | str | arr =>
      rw [List.mem_singleton.1 h]
      exact .slotNotMapping hc (by simp)

/-! ### Arrays at sequences -/

/-- **An output in step with its source has an array wherever the source has one.** -/
theorem slotNotArray_not_mem_skips {node : Node} {output : Entries Value}
    (ho : InStepE node output) (trajectory : List String) (key step k : String) :
    Skip.slotNotArray step k ∉ skips trajectory key node output := by
  induction trajectory generalizing node output with
  | nil => exact skips_nil key node output ▸ List.not_mem_nil
  | cons first rest ih =>
    intro h
    have henter := (enterable_slot ho first).cases
    have hskip := skipped_of_mem_skips h
    generalize node.child first = child at henter hskip
    generalize slot child first output = slot at henter hskip
    cases hskip with
    | inElement hitem hbranch hbelow =>
      -- the branch is in step with its item, or a new object
      rcases henter with ⟨_, _, hnode, hslot, hb⟩ | ⟨hc, -⟩ | ⟨hnode, -⟩
      · cases hnode
        cases hslot
        have hstep := inStepItem_getD hb hitem
        rw [hbranch] at hstep
        exact ih (inStepItem_obj.1 hstep).2 hbelow
      · cases hc
      · cases hnode
    | inSlot hc hbelow =>
      rcases henter with ⟨_, _, rfl, -⟩ | ⟨-, entries, hslot, -, hstep⟩ | ⟨-, hobj, -⟩
      · cases hc
      · cases hslot
        exact ih hstep hbelow
      · exact absurd rfl (hobj _)
    | slotNotArray harr =>
      rcases henter with ⟨_, branches, -, rfl, -⟩ | ⟨hc, -⟩ | ⟨hnode, -⟩
      · exact absurd rfl (harr branches)
      · cases hc
      · cases hnode

/-! ### Causes -/

theorem slot_foldl_select {node : Node} {step : String} {ss es : List Selection}
    (h : demands step ss = es.map Demand.enter) :
    slot (node.child step) step (ss.foldl (select node) []) =
      es.foldl (enter (node.child step)) (node.child step).emptySlot := by
  rw [slot, get?_foldl_select, h, Entries.get?_nil]
  by_cases hes : es = []
  · rw [hes]
    rfl
  · rw [foldl_meet_enters_none _ hes]
    rfl

/-- The branches of an array that selections only enter are excerpts, or not there yet. -/
theorem exists_branches_of_enters (items : List Value) (es : List Selection) :
    ∃ branches : List Value, es.foldl (enter (.sequence items)) (.arr []) = .arr branches ∧
      ∀ (i : Nat) (item : Value), items[i]? = some item →
        branches[i]?.getD .emptyObj = .obj (es.foldl (select (.of item)) []) := by
  by_cases hes : es = []
  · subst hes
    exact ⟨[], rfl, fun _ _ _ => rfl⟩
  · refine ⟨_, foldl_enter_emptyArr items hes, fun i item hitem => ?_⟩
    rw [List.getElem?_map, hitem]
    rfl

/-- In a container made for the selections that enter it, only a place further on is skipped. -/
theorem exists_mem_skips_of_enters {step key : String} {rest : List String} {child : Node}
    {es : List Selection} {skip : Skip}
    (h : Skipped step rest key child (es.foldl (enter child) child.emptySlot) skip) :
    ∃ node, skip ∈ skips rest key node (es.foldl (select node) []) := by
  cases hc : child.isSequence with
  | true =>
    obtain ⟨items, rfl⟩ := child.exists_items hc
    obtain ⟨branches, hslot, hbranch⟩ := exists_branches_of_enters items es
    have h : Skipped step rest key (.sequence items) (.arr branches) skip := hslot ▸ h
    cases h with
    | inElement hitem hentries hskip =>
      rw [hbranch _ _ hitem] at hentries
      cases hentries
      exact ⟨_, hskip⟩
    | elementNotMapping hitem hobj => exact absurd (hbranch _ _ hitem) (hobj _)
    | slotNotArray harr => exact absurd rfl (harr branches)
    | slotNotMapping hq => cases hq
  | false =>
    rw [foldl_enter_emptySlot hc] at h
    cases h with
    | inSlot _ hskip => exact ⟨_, hskip⟩
    | slotNotMapping _ hobj => exact absurd rfl (hobj _)
    | slotNotArray => cases hc

/-- **A skip has an earlier cause.** Where a selection is not followed, one before it ends on its
way. -/
theorem exists_prefix_of_mem_skips {node : Node} {ss : List Selection} {trajectory : List String}
    {key : String} {skip : Skip}
    (h : skip ∈ skips trajectory key node (ss.foldl (select node) [])) :
    ∃ t ∈ ss, t.path <+: trajectory := by
  induction trajectory generalizing node ss with
  | nil => exact absurd (skips_nil key .. ▸ h) List.not_mem_nil
  | cons step rest ih =>
    by_cases htake : Demand.take ∈ demands step ss
    · exact ⟨⟨[], step⟩, take_mem_demands.1 htake, List.cons_prefix_cons.2 ⟨rfl, List.nil_prefix⟩⟩
    · -- nothing is copied into the slot, so that it is a container made for those that enter
      obtain ⟨es, hes⟩ := exists_enters_of_not_mem htake
      have hskip := skipped_of_mem_skips h
      rw [slot_foldl_select hes] at hskip
      obtain ⟨child, hbelow⟩ := exists_mem_skips_of_enters hskip
      obtain ⟨t, ht, hpre⟩ := ih hbelow
      exact ⟨t.under step, (mem_enters_iff hes).1 ht, List.cons_prefix_cons.2 ⟨rfl, hpre⟩⟩

end Excerpt.Projection

namespace Excerpt.KeySpec

open Json Projection

/-- **Output and source are in lockstep**, after any selections. What stands below a key of the
output is permitted by the node of the source at its place. The next selection finds every branch by
its index and an array at every sequence, and where it is not followed, one of those before it ends
on its way. -/
theorem excerpt_lockstep (ss : List Selection) (d : Document) :
    (∀ (way : List Leg) (key : String) (slot : Value),
      (apply ⟨ss⟩ d).follow? (way ++ [.key key]) = some slot →
        ((Node.of d.root).follow (way ++ [.key key])).Permits slot) ∧
    ∀ s : Selection,
      projectByIndex? s.trajectory s.key (.of d) (excerpt ⟨ss⟩ (.of d)) =
        some (select (.of d) (excerpt ⟨ss⟩ (.of d)) s) ∧
      (∀ step key, Skip.slotNotArray step key ∉
        Projection.skips s.trajectory s.key (.of d) (excerpt ⟨ss⟩ (.of d))) ∧
      (Projection.skips s.trajectory s.key (.of d) (excerpt ⟨ss⟩ (.of d)) ≠ [] →
        ∃ t ∈ ss, t.path <+: s.trajectory) := by
  refine ⟨fun way key slot h => permits_of_follow? ss d h, fun s => ⟨?_, ?_, ?_⟩⟩
  · rw [projectByIndex?_eq]
    rfl
  · have hstep : InStepE (.of d) (excerpt ⟨ss⟩ (.of d)) :=
      inStepE_foldl_select (Node.ordered_of d.ordered) (inStepE_iff.2 (by simp)) ss
    exact slotNotArray_not_mem_skips hstep s.trajectory s.key
  · intro hskips
    obtain ⟨skip, hskip⟩ := List.exists_mem_of_ne_nil _ hskips
    exact exists_prefix_of_mem_skips hskip

/-- An array with an object in it, and a scalar behind it. -/
def arrayAndScalar : Document :=
  ⟨.obj [("a", .arr [.arr [.obj [("b", .null)]], .bool true])],
    by simp [Value.Ordered, Value.OrderedL, Value.OrderedE, Entries.Sorted]⟩

/-- An object stands where the source has an array inside an array, and the object behind its index
`0` is a copy. The `null` in that copy is not gone into. -/
theorem excerpt_lockstep_copy_in_nested_array :
    (apply ⟨[⟨["a"], "0"⟩]⟩ arrayAndScalar).follow? [.key "a", .index 0, .key "0"] =
      some (.obj [("b", .null)]) ∧
    ((Node.of arrayAndScalar.root).follow [.key "a", .index 0, .key "0"]).Permits
      (.obj [("b", .null)]) ∧
    Projection.skips ["a", "0", "b"] "x" (.of arrayAndScalar)
      (excerpt ⟨[⟨["a"], "0"⟩]⟩ (.of arrayAndScalar)) ≠ [] ∧
    ∃ t ∈ [(⟨["a"], "0"⟩ : Selection)], t.path <+: ["a", "0", "b"] := by
  have hslot : (apply ⟨[⟨["a"], "0"⟩]⟩ arrayAndScalar).follow?
      ([.key "a", .index 0] ++ [.key "0"]) = some (.obj [("b", .null)]) := by decide +kernel
  have hskips : Projection.skips ["a", "0", "b"] "x" (.of arrayAndScalar)
      (excerpt ⟨[⟨["a"], "0"⟩]⟩ (.of arrayAndScalar)) ≠ [] := by decide +kernel
  have hlock := excerpt_lockstep [⟨["a"], "0"⟩] arrayAndScalar
  exact ⟨hslot, hlock.1 _ _ _ hslot, hskips, (hlock.2 ⟨["a", "0", "b"], "x"⟩).2.2 hskips⟩

end Excerpt.KeySpec
