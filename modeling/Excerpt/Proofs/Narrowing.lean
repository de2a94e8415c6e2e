import Excerpt.Proofs.Demands
import Excerpt.Proofs.Visibility

/-!
# An excerpt of an excerpt

Where a selection goes on from what another one selected, and no other one goes on from it, it finds
in the excerpt what it finds in the document.

* `Unextended` — no selection of a list goes on below the end of a selection;
* `alike_missing`, `alike_copy` — to such a selection the containers that others left where nothing
  was look like nothing, and a copy that others entered looks like the copy;
* `alike_excerpt` — an excerpt looks like its document;
* `KeySpec.apply_apply_of_extends` — an excerpt of an excerpt is an excerpt of the document.
-/

namespace Excerpt.Projection

open Json

/-- The path of a selection is not the beginning of a longer path of the list. -/
def Unextended (s : Selection) (ss : List Selection) : Prop :=
  ∀ e ∈ ss, s.path <+: e.path → e.path = s.path

/-- Behind the first key, what enters its slot does not extend a selection either. -/
theorem Unextended.enter {step key : String} {rest : List String} {ss es : List Selection}
    (h : Unextended ⟨step :: rest, key⟩ ss) (hes : ∀ e ∈ es, Demand.enter e ∈ demands step ss) :
    Unextended ⟨rest, key⟩ es := by
  intro e he hpre
  have hmem : e.under step ∈ ss := enter_mem_demands.1 (hes e he)
  have hpath := h _ hmem (List.cons_prefix_cons.2 ⟨rfl, hpre⟩)
  exact (List.cons.inj hpath).2

/-- At its last key, others take the value. -/
theorem Unextended.eq_take {key : String} {ss : List Selection} (h : Unextended ⟨[], key⟩ ss)
    {t : Demand} (ht : t ∈ demands key ss) : t = .take := by
  cases t with
  | take => rfl
  | enter e =>
    have hpre : (⟨[], key⟩ : Selection).path <+: (e.under key).path :=
      List.cons_prefix_cons.2 ⟨rfl, List.nil_prefix⟩
    have hpath := congrArg List.length (h _ (enter_mem_demands.1 ht) hpre)
    simp [Selection.path, Selection.under] at hpath

/-! ### Selections that a path goes on from -/

theorem eq_of_extended_end {e : Selection} {key : String}
    (h : e.path <+: (⟨[], key⟩ : Selection).path) : e = ⟨[], key⟩ := by
  obtain ⟨trajectory, terminal⟩ := e
  cases trajectory with
  | nil =>
    obtain rfl : terminal = key := (List.cons_prefix_cons.1 h).1
    rfl
  | cons first tail =>
    have hle := h.length_le
    simp [Selection.path] at hle

/-- A path goes on from its first key, or from another path behind it. -/
theorem extended_cases {e : Selection} {step key : String} {rest : List String}
    (h : e.path <+: (⟨step :: rest, key⟩ : Selection).path) :
    e = ⟨[], step⟩ ∨ ∃ e' : Selection, e = e'.under step ∧
      e'.path <+: (⟨rest, key⟩ : Selection).path := by
  obtain ⟨trajectory, terminal⟩ := e
  cases trajectory with
  | nil =>
    obtain rfl : terminal = step := (List.cons_prefix_cons.1 h).1
    exact .inl rfl
  | cons first tail =>
    obtain ⟨rfl, htail⟩ := List.cons_prefix_cons.1 h
    exact .inr ⟨⟨tail, terminal⟩, rfl, htail⟩

/-- Where the value of a slot is never taken, a selection that goes on below it goes on from one
that enters. -/
theorem exists_extended_of_enters {step key : String} {rest : List String} {ss es : List Selection}
    (hext : ∃ e ∈ ss, e.path <+: (⟨step :: rest, key⟩ : Selection).path)
    (hts : demands step ss = es.map Demand.enter) :
    ∃ e ∈ es, e.path <+: (⟨rest, key⟩ : Selection).path := by
  obtain ⟨e, he, hpre⟩ := hext
  rcases extended_cases hpre with rfl | ⟨e', rfl, hpre'⟩
  · have hmem := take_mem_demands.2 he
    simp [hts] at hmem
  · exact ⟨e', (mem_enters_iff hts).2 he, hpre'⟩

/-! ### Where nothing is -/

theorem below_missing {trajectory : List String} {key : String}
    (hobj : ∀ ss, Unextended ⟨trajectory, key⟩ ss →
      Alike trajectory key (.mapping (ss.foldl (select .missing) [])) .missing)
    {ts : List Demand} (h : Unextended ⟨trajectory, key⟩ (entered ts)) :
    Below (Alike trajectory key) (.ofOption (ts.foldl (meet .missing) none)) .missing := by
  by_cases he : entered ts = []
  · rw [foldl_meet_missing, he]
    exact below_refl (alike_refl trajectory key) .missing
  · rw [foldl_meet_missing_none he]
    exact below_of_not_sequence rfl rfl (hobj (entered ts) h)

/-- **Containers that others left look like nothing.** -/
theorem alike_missing (s : Selection) (ss : List Selection) (h : Unextended s ss) :
    Alike s.trajectory s.key (.mapping (ss.foldl (select .missing) [])) .missing := by
  obtain ⟨trajectory, key⟩ := s
  induction trajectory generalizing ss with
  | nil =>
    show Node.ofOption (Entries.get? key (ss.foldl (select .missing) [])) = .missing
    have hnone : (demands key ss).foldl (meet .missing) none = none :=
      foldl_meet_takes_self .missing fun t ht => h.eq_take ht
    rw [get?_foldl_select, Node.child_missing, Entries.get?_nil, hnone]
    rfl
  | cons step rest ih =>
    show Below (Alike rest key)
      (.ofOption (Entries.get? step (ss.foldl (select .missing) []))) .missing
    rw [get?_foldl_select, Node.child_missing, Entries.get?_nil]
    exact below_missing ih (h.enter fun e he => mem_entered.1 he)

/-! ### Where a copy is -/

theorem below_copy {trajectory : List String} {key : String}
    (hobj : ∀ ss entries, Unextended ⟨trajectory, key⟩ ss →
      Alike trajectory key (.mapping (ss.foldl (select (.mapping entries)) entries))
        (.mapping entries))
    {es : List Selection} (h : Unextended ⟨trajectory, key⟩ es) (v : Value) :
    Below (Alike trajectory key) (.of (es.foldl (enter (.of v)) v)) (.of v) := by
  by_cases hne : es = []
  · subst hne
    exact below_refl (alike_refl trajectory key) (.of v)
  cases v with
  | arr items =>
    have hcopy : es.foldl (enter (.of (.arr items))) (.arr items) = .arr (items.map (deepen es)) :=
      foldl_enter_copiedArr items hne
    rw [hcopy]
    refine List.forall₂_map_left_iff.2 (List.forall₂_same.2 fun item _ => ?_)
    cases item with
    | obj entries => exact hobj es entries h
    | null | bool | num | str | arr => exact alike_refl trajectory key _
  | obj entries =>
    have hcopy : es.foldl (enter (.of (.obj entries))) (.obj entries) =
        .obj (es.foldl (select (.mapping entries)) entries) := foldl_enter_obj rfl entries es
    rw [hcopy]
    exact below_of_not_sequence rfl rfl (hobj es entries h)
  | null | bool | num | str =>
    rw [foldl_enter_of_not_container (by simp) (by simp)]
    exact below_refl (alike_refl trajectory key) _

/-- **A copy that others entered looks like the copy.** -/
theorem alike_copy (s : Selection) (ss : List Selection) (entries : Entries Value)
    (h : Unextended s ss) :
    Alike s.trajectory s.key (.mapping (ss.foldl (select (.mapping entries)) entries))
      (.mapping entries) := by
  obtain ⟨trajectory, key⟩ := s
  induction trajectory generalizing ss entries with
  | nil =>
    show Node.ofOption (Entries.get? key (ss.foldl (select (.mapping entries)) entries)) =
      .ofOption (Entries.get? key entries)
    have hvalue := foldl_meet_takes_self ((Node.mapping entries).child key)
      fun t (ht : t ∈ demands key ss) => h.eq_take ht
    rw [Node.child, Node.value?_ofOption] at hvalue
    rw [get?_foldl_select, Node.child, hvalue]
  | cons step rest ih =>
    show Below (Alike rest key)
      (.ofOption (Entries.get? step (ss.foldl (select (.mapping entries)) entries)))
      (.ofOption (Entries.get? step entries))
    rw [get?_foldl_select, Node.child]
    cases hv : Entries.get? step entries with
    | none =>
      refine below_missing (fun ss hss => alike_missing ⟨rest, key⟩ ss hss) ?_
      exact h.enter fun e he => mem_entered.1 he
    | some v =>
      obtain ⟨es, hes, hfold⟩ := exists_entered_copy v (demands step ss)
      have hrun : (demands step ss).foldl (meet (.ofOption (some v))) (some v) =
          some (es.foldl (enter (.of v)) v) := hfold
      rw [hrun]
      exact below_copy ih (h.enter hes) v

/-! ### Excerpts -/

/-- A slot that only selections enter which a selection goes on from. -/
theorem below_enters {trajectory : List String} {key : String} {es : List Selection} (hne : es ≠ [])
    (hobj : ∀ node : Node,
      Alike trajectory key (.mapping (es.foldl (select node) [])) node) (c : Node) :
    Below (Alike trajectory key) (.of (es.foldl (enter c) c.emptySlot)) c := by
  cases hc : c.isSequence with
  | true =>
    obtain ⟨items, rfl⟩ := c.exists_items hc
    have hslot : es.foldl (enter (.sequence items)) (Node.sequence items).emptySlot =
        .arr (items.map (KeySpec.apply ⟨es⟩)) := foldl_enter_emptyArr items hne
    rw [hslot]
    exact List.forall₂_map_left_iff.2 (List.forall₂_same.2 fun item _ => hobj (.of item))
  | false =>
    rw [foldl_enter_emptySlot hc]
    exact below_of_not_sequence rfl hc (hobj c)

/-- **An excerpt looks like its source** to a selection that goes on from one of its selections, if
no other one goes on from it. -/
theorem alike_excerpt (s : Selection) (ss : List Selection)
    (hext : ∃ e ∈ ss, e.path <+: s.path) (h : Unextended s ss) (node : Node) :
    Alike s.trajectory s.key (.mapping (ss.foldl (select node) [])) node := by
  obtain ⟨trajectory, key⟩ := s
  induction trajectory generalizing ss node with
  | nil =>
    show Node.ofOption (Entries.get? key (ss.foldl (select node) [])) = node.child key
    obtain ⟨e, he, hpre⟩ := hext
    have hmem : Demand.take ∈ demands key ss :=
      take_mem_demands.2 (eq_of_extended_end hpre ▸ he)
    have hvalue : (demands key ss).foldl (meet (node.child key)) none = (node.child key).value? :=
      foldl_meet_takes_none _ (fun t ht => h.eq_take ht) (List.ne_nil_of_mem hmem)
    rw [get?_foldl_select, Entries.get?_nil, hvalue, ← Node.child_eq_ofOption]
  | cons step rest ih =>
    show Below (Alike rest key) (.ofOption (Entries.get? step (ss.foldl (select node) [])))
      (node.child step)
    rw [get?_foldl_select, Entries.get?_nil]
    have hkept : ∀ es : List Selection, (∀ e ∈ es, Demand.enter e ∈ demands step ss) →
        Unextended ⟨rest, key⟩ es := fun es hes => h.enter hes
    rcases exists_enters (demands step ss) with ⟨es, hts⟩ | ⟨before, es, hts⟩
    · -- the value is never taken, so the selection goes on from one that enters
      have hes : ∀ e ∈ es, Demand.enter e ∈ demands step ss := fun e he =>
        hts ▸ List.mem_map_of_mem he
      have hsub := exists_extended_of_enters hext hts
      have hne : es ≠ [] := fun hnil => by simp [hnil] at hsub
      rw [hts, foldl_meet_enters_none _ hne]
      exact below_enters hne (fun node => ih es node hsub (hkept es hes)) (node.child step)
    · -- the value is taken, and the selection reads in the copy
      have hes : ∀ e ∈ es, Demand.enter e ∈ demands step ss := fun e he => by simp [hts, he]
      rw [node.child_eq_ofOption]
      cases (node.child step).value? with
      | none =>
        refine below_missing (fun ss hss => alike_missing ⟨rest, key⟩ ss hss) ?_
        exact hkept _ fun e he => mem_entered.1 he
      | some v =>
        have hrun : (demands step ss).foldl (meet (.ofOption (some v))) none =
            some (es.foldl (enter (.of v)) v) := foldl_meet_of_take v none hts
        rw [hrun]
        exact below_copy (fun ss entries hss => alike_copy ⟨rest, key⟩ ss entries hss)
          (hkept es hes) v

end Excerpt.Projection

namespace Excerpt.KeySpec

open Json Projection

/-- **An excerpt of an excerpt is an excerpt of the document**, where each selection of the second
goes on from one of the first or is one of them, and none of the first goes on from it. -/
theorem apply_apply_of_extends (ks₁ ks₂ : KeySpec)
    (hext : ∀ t ∈ ks₂.selections, ∃ s ∈ ks₁.selections, s.path <+: t.path)
    (hpre : ∀ t ∈ ks₂.selections, ∀ s ∈ ks₁.selections, t.path <+: s.path → s.path = t.path)
    (d : Value) : ks₂.apply (ks₁.apply d) = ks₂.apply d := by
  have halike : ∀ t ∈ ks₂.selections,
      Alike t.trajectory t.key (.mapping (ks₁.excerpt (.of d))) (.of d) := fun t ht =>
    alike_excerpt t ks₁.selections (hext t ht) (hpre t ht) (.of d)
  exact congrArg Value.obj (foldl_select_eq_of_alike halike [])

/-- A copy, and a container made in it. -/
def copyAndContainer : KeySpec := ⟨[⟨[], "a"⟩, ⟨["a", "x"], "y"⟩]⟩

/-- A selection that goes on from the copy, and the one that made the container. -/
def goesOn : KeySpec := ⟨[⟨["a", "0"], "b"⟩, ⟨["a", "x"], "y"⟩]⟩

/-- The first excerpt copies an array and leaves a container in its first element. The second goes
on from the copy, and asks for the container's missing key again. -/
theorem apply_apply_of_extends_copy_and_container :
    (∀ t ∈ goesOn.selections, ∃ s ∈ copyAndContainer.selections, s.path <+: t.path) ∧
    (∀ t ∈ goesOn.selections, ∀ s ∈ copyAndContainer.selections, t.path <+: s.path →
      s.path = t.path) ∧
    ∃ d : Value, d = .obj [("a", .arr [.obj [("0", .obj [("b", .null)])], .arr [.null]])] ∧
      copyAndContainer.apply d ≠ d ∧ goesOn.apply (copyAndContainer.apply d) = goesOn.apply d := by
  have hext : ∀ t ∈ goesOn.selections,
      ∃ s ∈ copyAndContainer.selections, s.path <+: t.path := by decide
  have hpre : ∀ t ∈ goesOn.selections, ∀ s ∈ copyAndContainer.selections, t.path <+: s.path →
      s.path = t.path := by decide
  exact ⟨hext, hpre, _, rfl, by decide +kernel,
    apply_apply_of_extends copyAndContainer goesOn hext hpre _⟩

end Excerpt.KeySpec
