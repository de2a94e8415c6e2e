import Excerpt.Proofs.Places

/-!
# What a selection leaves alone

A selection fans out over an output: it goes from object to object, and through the elements of an
array where the source has a sequence. It sets its key in the objects at the end, and creates what
is missing on the way. All else is as it was, for every output, also one that no run gives.

* `Stage` — where a selection stands at a place of an output, `Stage.follow?` where it comes to
  along a way;
* `Stage.apply` — what it makes of the value there;
* `along?_apply`, `along?_apply_of_eq_none` — one leg on the way of the selection, and off it;
* `follow?_apply`, `follow?_apply_of_eq_none` — whole ways;
* `ChangesOnly`, `project_changesOnly` — in what an output differs.
-/

namespace Excerpt

open Json

namespace Json.Value

inductive Kind where
  | null | bool | num | str | arr | obj
  deriving DecidableEq, Repr

def kind : Value → Kind
  | .null => .null
  | .bool _ => .bool
  | .num _ => .num
  | .str _ => .str
  | .arr _ => .arr
  | .obj _ => .obj

theorem exists_entries {v : Value} (h : v.kind = .obj) : ∃ entries, v = .obj entries := by
  cases v with
  | obj entries => exact ⟨entries, rfl⟩
  | null | bool | num | str | arr => cases h

theorem exists_items {v : Value} (h : v.kind = .arr) : ∃ items, v = .arr items := by
  cases v with
  | arr items => exact ⟨items, rfl⟩
  | null | bool | num | str | obj => cases h

theorem follow?_cons (v : Value) (leg : Leg) (way : List Leg) :
    v.follow? (leg :: way) = (v.along? leg).bind fun u => u.follow? way := by
  rw [follow?, List.foldlM_cons]
  rfl

theorem follow?_concat (v : Value) (way : List Leg) (leg : Leg) :
    v.follow? (way ++ [leg]) = (v.follow? way).bind fun u => u.along? leg := by
  rw [follow?, List.foldlM_append]
  refine bind_congr fun u => ?_
  rw [List.foldlM_cons]
  exact bind_pure _

end Json.Value

namespace Projection

/-- Where a selection stands at a place of an output, with the part of it that is still to go. -/
inductive Stage where
  /-- An object is entered, which faces a node of the source. -/
  | object (node : Node) (s : Selection)
  /-- An array is gone through, which has an element for every item of a sequence. -/
  | array (items : List Value) (s : Selection)

namespace Stage

/-- The stage of a slot that faces a node. -/
def below (child : Node) (s : Selection) : Stage :=
  match child with
  | .sequence items => .array items s
  | child => .object child s

/-- The stage one leg further, where the selection goes that way. -/
def along? : Stage → Leg → Option Stage
  | .object node ⟨step :: rest, key⟩, .key k =>
    if k = step then some (below (node.child step) ⟨rest, key⟩) else none
  | .array items s, .index i => items[i]?.map fun item => .object (.of item) s
  | _, _ => none

def follow? (stage : Stage) (way : List Leg) : Option Stage := way.foldlM along? stage

/-- The kind of the values that are entered at a stage. -/
def kind : Stage → Value.Kind
  | .object .. => .obj
  | .array .. => .arr

def empty : Stage → Value
  | .object .. => .emptyObj
  | .array .. => .emptyArr

def apply : Stage → Value → Value
  | .object node s, v => within (fun output => select node output s) v
  | .array items s, v => enter (.sequence items) v s

/-- The selection sets its key at a place: it ends at the object above, and finds a value. -/
def SetsAt (stage : Stage) (place : List Leg) (v : Value) : Prop :=
  ∃ way node key, place = way ++ [.key key] ∧ stage.follow? way = some (.object node ⟨[], key⟩) ∧
    (node.child key).value? = some v

/-! ### One stage -/

variable {stage stage' : Stage} {v : Value} {leg : Leg}

theorem follow?_cons (stage : Stage) (leg : Leg) (way : List Leg) :
    stage.follow? (leg :: way) = (stage.along? leg).bind fun stage' => stage'.follow? way := by
  rw [follow?, List.foldlM_cons]
  rfl

theorem follow?_concat (stage : Stage) (way : List Leg) (leg : Leg) :
    stage.follow? (way ++ [leg]) = (stage.follow? way).bind fun stage' => stage'.along? leg := by
  rw [follow?, List.foldlM_append]
  refine bind_congr fun next => ?_
  rw [List.foldlM_cons]
  exact bind_pure _

theorem apply_below (child : Node) (s : Selection) (v : Value) :
    (below child s).apply v = enter child v s := by
  cases child <;> rfl

theorem empty_below (child : Node) (s : Selection) : (below child s).empty = child.emptySlot := by
  cases child <;> rfl

theorem kind_empty (stage : Stage) : stage.empty.kind = stage.kind := by
  cases stage <;> rfl

theorem along?_empty (stage : Stage) (leg : Leg) : stage.empty.along? leg = none := by
  cases stage <;> cases leg <;> rfl

/-- A value of another kind stays as it is. -/
theorem apply_of_kind_ne (h : v.kind ≠ stage.kind) : stage.apply v = v := by
  cases stage with
  | object node s =>
    cases v with
    | obj entries => exact absurd rfl h
    | null | bool | num | str | arr => rfl
  | array items s =>
    cases v with
    | arr branches => exact absurd rfl h
    | null | bool | num | str | obj => rfl

/-- No value changes its kind. -/
theorem kind_apply (stage : Stage) (v : Value) : (stage.apply v).kind = v.kind := by
  cases stage <;> cases v <;> rfl

/-- Where the selection goes: below its next step, or into every element of an array that has an
item. -/
theorem along?_eq_some (h : stage.along? leg = some stage') :
    (∃ node step rest key, stage = .object node ⟨step :: rest, key⟩ ∧ leg = .key step ∧
      stage' = below (node.child step) ⟨rest, key⟩) ∨
    ∃ items s i item, stage = .array items s ∧ leg = .index i ∧ items[i]? = some item ∧
      stage' = .object (.of item) s := by
  unfold along? at h
  split at h
  · next node step rest key k =>
    obtain ⟨rfl, heq⟩ : k = step ∧ below (node.child step) ⟨rest, key⟩ = stage' := by simpa using h
    exact .inl ⟨node, k, rest, key, rfl, rfl, heq.symm⟩
  · next items s i =>
    obtain ⟨item, hi, heq⟩ := Option.map_eq_some_iff.1 h
    exact .inr ⟨items, s, i, item, rfl, rfl, hi, heq.symm⟩
  · cases h

/-- Where a selection can go on in a value, the value is of the kind that it enters. -/
theorem kind_eq_of_along? {u : Value} (h : stage.along? leg = some stage')
    (hu : v.along? leg = some u) : v.kind = stage.kind := by
  rcases along?_eq_some h with ⟨node, step, rest, key, rfl, rfl, -⟩ |
    ⟨items, s, i, item, rfl, rfl, -⟩
  · cases v with
    | obj entries => rfl
    | null | bool | num | str | arr => cases hu
  · cases v with
    | arr branches => rfl
    | null | bool | num | str | obj => cases hu

/-- **One leg on the way of the selection.** What stands there, or a container that is created, goes
through the next stage. -/
theorem along?_apply (h : stage.along? leg = some stage') (hv : v.kind = stage.kind) :
    (stage.apply v).along? leg = some (stage'.apply ((v.along? leg).getD stage'.empty)) := by
  rcases along?_eq_some h with ⟨node, step, rest, key, rfl, rfl, rfl⟩ |
    ⟨items, s, i, item, rfl, rfl, hi, rfl⟩
  · obtain ⟨entries, rfl⟩ := Value.exists_entries hv
    show Entries.get? step (select node entries ⟨step :: rest, key⟩) = _
    rw [get?_select, apply_below, empty_below]
    exact if_pos rfl
  · obtain ⟨branches, rfl⟩ := Value.exists_items hv
    show (fanOut _ items branches)[i]? = _
    rw [getElem?_fanOut, hi]
    rfl

/-- **One leg off the way of the selection.** Nothing changes, except where the key is set. -/
theorem along?_apply_of_eq_none (h : stage.along? leg = none)
    (hset : ∀ u, ¬ stage.SetsAt [leg] u) : (stage.apply v).along? leg = v.along? leg := by
  by_cases hv : v.kind = stage.kind
  · cases stage with
    | object node s =>
      obtain ⟨entries, rfl⟩ := Value.exists_entries hv
      cases leg with
      | index i => rfl
      | key k =>
        obtain ⟨trajectory, key⟩ := s
        show Entries.get? k (select node entries ⟨trajectory, key⟩) = Entries.get? k entries
        rw [get?_select]
        split
        · next hk =>
          cases trajectory with
          | nil =>
            obtain rfl : k = key := hk
            have hmissing : (node.child k).value? = none :=
              Option.eq_none_iff_forall_ne_some.2 fun u hu => hset u ⟨[], node, k, rfl, rfl, hu⟩
            show (node.child k).value?.or _ = _
            rw [hmissing, Option.none_or]
          | cons step rest =>
            obtain rfl : k = step := hk
            simp [along?] at h
        · rfl
    | array items s =>
      obtain ⟨branches, rfl⟩ := Value.exists_items hv
      cases leg with
      | key k => rfl
      | index i =>
        have hi : items[i]? = none := by simpa [along?] using h
        show (fanOut _ items branches)[i]? = branches[i]?
        rw [getElem?_fanOut, hi]
  · rw [apply_of_kind_ne hv]

/-- The key is set in an object at which the selection ends. -/
theorem along?_apply_of_ends {node : Node} {key : String} {u : Value} (entries : Entries Value)
    (hu : (node.child key).value? = some u) :
    ((Stage.object node ⟨[], key⟩).apply (.obj entries)).along? (.key key) = some u := by
  show Entries.get? key (select node entries ⟨[], key⟩) = _
  rw [get?_select, if_pos (show key = Selection.first ⟨[], key⟩ from rfl)]
  show (node.child key).value?.or _ = _
  rw [hu, Option.some_or]

/-! ### Whole ways -/

/-- **On the way of the selection** stands what was there, or a container that is created, after it
has gone through the stage of its place. -/
theorem follow?_apply {way : List Leg} {w : Value} (h : stage.follow? way = some stage')
    (hw : (stage.apply v).follow? way = some w) :
    w = stage'.apply ((v.follow? way).getD stage'.empty) := by
  induction way generalizing stage v with
  | nil =>
    cases h
    cases hw
    rfl
  | cons leg way ih =>
    rw [follow?_cons] at h
    obtain ⟨next, hnext, h⟩ := Option.bind_eq_some_iff.1 h
    rw [Value.follow?_cons] at hw
    obtain ⟨u, hu, hw⟩ := Option.bind_eq_some_iff.1 hw
    have hkind : v.kind = stage.kind := by
      rw [← kind_apply stage v]
      exact kind_eq_of_along? hnext hu
    rw [along?_apply hnext hkind] at hu
    cases hu
    rw [ih h hw, Value.follow?_cons]
    cases v.along? leg with
    | some u => rfl
    | none =>
      -- a container that is created has nothing in it
      cases way with
      | nil =>
        cases h
        rfl
      | cons leg' way =>
        rw [Option.getD_none, Value.follow?_cons, along?_empty]
        rfl

/-- What stands on the way of the selection stays there. -/
theorem follow?_apply_of_eq_some {way : List Leg} {u : Value} (h : stage.follow? way = some stage')
    (hu : v.follow? way = some u) : (stage.apply v).follow? way = some (stage'.apply u) := by
  induction way generalizing stage v with
  | nil =>
    cases h
    cases hu
    rfl
  | cons leg way ih =>
    rw [follow?_cons] at h
    obtain ⟨next, hnext, h⟩ := Option.bind_eq_some_iff.1 h
    rw [Value.follow?_cons] at hu
    obtain ⟨w, hw, hu⟩ := Option.bind_eq_some_iff.1 hu
    rw [Value.follow?_cons, along?_apply hnext (kind_eq_of_along? hnext hw), hw]
    exact ih h hu

theorem SetsAt.cons {place : List Leg} {u : Value} (h : stage.along? leg = some stage')
    (hset : stage'.SetsAt place u) : stage.SetsAt (leg :: place) u := by
  obtain ⟨way, node, key, rfl, hway, hu⟩ := hset
  exact ⟨leg :: way, node, key, rfl, by rw [follow?_cons, h]; exact hway, hu⟩

/-- **Off the way of the selection** nothing changes, except at the places where the key is set. -/
theorem follow?_apply_of_eq_none {way : List Leg} (h : stage.follow? way = none)
    (hset : ∀ place u, stage.SetsAt place u → ¬ place <+: way) :
    (stage.apply v).follow? way = v.follow? way := by
  induction way generalizing stage v with
  | nil => cases h
  | cons leg way ih =>
    rw [Value.follow?_cons, Value.follow?_cons]
    cases hnext : stage.along? leg with
    | none =>
      have hleg : ∀ u, ¬ stage.SetsAt [leg] u := fun u hu =>
        hset [leg] u hu (List.cons_prefix_cons.2 ⟨rfl, List.nil_prefix⟩)
      rw [along?_apply_of_eq_none hnext hleg]
    | some next =>
      rw [follow?_cons, hnext] at h
      have hset' : ∀ place u, next.SetsAt place u → ¬ place <+: way := fun place u hu hpre =>
        hset (leg :: place) u (hu.cons hnext) (List.cons_prefix_cons.2 ⟨rfl, hpre⟩)
      by_cases hkind : v.kind = stage.kind
      · rw [along?_apply hnext hkind]
        refine (ih h hset').trans ?_
        cases v.along? leg with
        | some u => rfl
        | none =>
          cases way with
          | nil => cases h
          | cons leg' way =>
            rw [Option.getD_none, Value.follow?_cons, along?_empty]
            rfl
      · rw [apply_of_kind_ne hkind]

/-- Something that cannot be entered stays as it is. -/
theorem follow?_apply_of_kind_ne {way : List Leg} {u : Value} (h : stage.follow? way = some stage')
    (hu : v.follow? way = some u) (hkind : u.kind ≠ stage'.kind) :
    (stage.apply v).follow? way = some u := by
  rw [follow?_apply_of_eq_some h hu, apply_of_kind_ne hkind]

/-- The key is set in every object at which the selection ends. -/
theorem follow?_apply_of_ends {way : List Leg} {node : Node} {key : String} {u : Value}
    {entries : Entries Value} (h : stage.follow? way = some (.object node ⟨[], key⟩))
    (hu : (node.child key).value? = some u)
    (hw : (stage.apply v).follow? way = some (.obj entries)) :
    (stage.apply v).follow? (way ++ [.key key]) = some u := by
  have heq := follow?_apply h hw
  have hkind : ((v.follow? way).getD (Stage.object node ⟨[], key⟩).empty).kind = .obj := by
    rw [← kind_apply (.object node ⟨[], key⟩), ← heq]
    rfl
  obtain ⟨before, hbefore⟩ := Value.exists_entries hkind
  rw [hbefore] at heq
  rw [Value.follow?_concat, hw, heq]
  exact along?_apply_of_ends before hu

/-- One leg further in something that is entered stands what was there, or a container that is
created. -/
theorem exists_follow?_apply_concat {way : List Leg} {w : Value} {next : Stage}
    (h : stage.follow? way = some stage') (hnext : stage'.along? leg = some next)
    (hw : (stage.apply v).follow? way = some w) (hkind : w.kind = stage'.kind) :
    ∃ u, (stage.apply v).follow? (way ++ [leg]) = some u ∧
      (v.follow? (way ++ [leg]) = none → u.kind = next.kind) := by
  rw [follow?_apply h hw, kind_apply] at hkind
  have hleg : (stage.apply v).follow? (way ++ [leg]) = w.along? leg := by
    rw [Value.follow?_concat, hw, Option.bind_some]
  have hway : stage.follow? (way ++ [leg]) = some next := by
    rw [follow?_concat, h, Option.bind_some, hnext]
  rw [follow?_apply h hw, along?_apply hnext hkind] at hleg
  refine ⟨_, hleg, fun hnone => ?_⟩
  rw [follow?_apply hway hleg, hnone, kind_apply]
  exact next.kind_empty

/-- What stands somewhere stays there, in its kind, except where the key is set. -/
theorem exists_follow?_apply {way : List Leg} {u : Value} (hu : v.follow? way = some u)
    (hset : ∀ place u, stage.SetsAt place u → ¬ place <+: way) :
    ∃ w, (stage.apply v).follow? way = some w ∧ w.kind = u.kind := by
  cases h : stage.follow? way with
  | none => exact ⟨u, (follow?_apply_of_eq_none h hset).trans hu, rfl⟩
  | some stage' => exact ⟨_, follow?_apply_of_eq_some h hu, kind_apply stage' u⟩

end Stage

/-! ### In what an output differs -/

/-- A value differs from what it was only where a selection sets its key, and in containers that are
created on the way there. -/
structure ChangesOnly (stage : Stage) (before after : Value) : Prop where
  /-- Off the way of the selection nothing goes, appears or changes, except at and below the places
  where the key is set. This is so of the other keys of an object, and of the elements of an array
  that have no item. -/
  elsewhere : ∀ way, stage.follow? way = none →
    (∀ place u, stage.SetsAt place u → ¬ place <+: way) → after.follow? way = before.follow? way
  /-- On its way, what cannot be entered is as it was. -/
  not_entered : ∀ way stage' v, stage.follow? way = some stage' → before.follow? way = some v →
    v.kind ≠ stage'.kind → after.follow? way = some v
  /-- In every object at which the selection ends, the key is set to the value of the source. -/
  set : ∀ way node key u entries, stage.follow? way = some (.object node ⟨[], key⟩) →
    (node.child key).value? = some u → after.follow? way = some (.obj entries) →
      after.follow? (way ++ [.key key]) = some u
  /-- On its way, what is missing in something that is entered is created: a slot, and an element
  for every item. It is a container of the kind that is entered there. -/
  created : ∀ way leg stage' next w, stage.follow? way = some stage' →
    stage'.along? leg = some next → after.follow? way = some w → w.kind = stage'.kind →
      ∃ u, after.follow? (way ++ [leg]) = some u ∧
        (before.follow? (way ++ [leg]) = none → u.kind = next.kind)
  /-- Nothing disappears, and nothing changes its kind, except at and below the places where the key
  is set. -/
  remains : ∀ way v, before.follow? way = some v →
    (∀ place u, stage.SetsAt place u → ¬ place <+: way) →
      ∃ w, after.follow? way = some w ∧ w.kind = v.kind

/-- **Projecting one selection changes nothing off its path.** This holds of every source and of
every output, whatever stands in it. -/
theorem project_changesOnly (trajectory : List String) (key : String) (source : Node)
    (output : Entries Value) :
    ChangesOnly (.object source ⟨trajectory, key⟩) (.obj output)
      (.obj (project trajectory key source output)) := by
  have happly : Value.obj (project trajectory key source output) =
      (Stage.object source ⟨trajectory, key⟩).apply (.obj output) := rfl
  rw [happly]
  exact {
    elsewhere := fun way h hset => Stage.follow?_apply_of_eq_none h hset
    not_entered := fun way stage' v h hv hkind => Stage.follow?_apply_of_kind_ne h hv hkind
    set := fun way node key u entries h hu hw => Stage.follow?_apply_of_ends h hu hw
    created := fun way leg stage' next w h hnext hw hkind =>
      Stage.exists_follow?_apply_concat h hnext hw hkind
    remains := fun way v hv hset => Stage.exists_follow?_apply hv hset }

def twoObjects : Node :=
  .of (.obj [("a", .arr [.obj [("c", .null)], .obj [("c", .obj [("k", .str "q")])]])])

/-- The selection `a.c.k` goes through an array in which the first element is no object, the second
lacks `c`, and the third has no item in the source. -/
theorem project_changesOnly_mixed_array :
    ∃ after, after = Value.obj (project ["a", "c"] "k" twoObjects
        [("a", .arr [.bool true, .obj [("x", .null)], .str "past"])]) ∧
      after.follow? [.key "a", .index 2] = some (.str "past") ∧
      after.follow? [.key "a", .index 0] = some (.bool true) ∧
      (∃ u, after.follow? [.key "a", .index 1, .key "c"] = some u ∧ u.kind = .obj) ∧
      after.follow? [.key "a", .index 1, .key "c", .key "k"] = some (.str "q") ∧
      ∃ w, after.follow? [.key "a"] = some w ∧ w.kind = .arr := by
  refine ⟨_, rfl, ?_⟩
  have h := project_changesOnly ["a", "c"] "k" twoObjects
    [("a", .arr [.bool true, .obj [("x", .null)], .str "past"])]
  -- the key is set below the two keys of the trajectory, so nowhere on such a short way
  have hset : ∀ place u, Stage.SetsAt (.object twoObjects ⟨["a", "c"], "k"⟩) place u →
      ¬ place <+: [.key "a", .index 2] := by
    rintro _ u ⟨way, node, key, rfl, hway, -⟩ ⟨rest, hrest⟩
    rcases way with _ | ⟨leg, _ | ⟨leg', way⟩⟩
    · simp [Stage.follow?] at hway
    · obtain ⟨rfl, -⟩ := List.cons.inj hrest
      cases hway
    · simp at hrest
  obtain ⟨u, hu, hkind⟩ := h.created [.key "a", .index 1] (.key "c") _ _ _ rfl rfl rfl rfl
  refine ⟨h.elsewhere _ rfl hset, h.not_entered _ _ _ rfl rfl (by decide),
    ⟨u, hu, hkind rfl⟩, h.set [.key "a", .index 1, .key "c"] _ _ _ _ rfl rfl rfl,
    h.remains [.key "a"] _ rfl fun place u hplace hpre => hset place u hplace ?_⟩
  exact hpre.trans ⟨[.index 2], rfl⟩

end Projection

end Excerpt
