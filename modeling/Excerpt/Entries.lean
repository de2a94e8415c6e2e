/-!
# Entries in key order

A table of values by key is a list of entries, keys in code-point order.

* `Entries.get?` — the value of a key;
* `Entries.put` — the entries with a value set, in key order;
* `Entries.Sorted` — the keys strictly increase;
* `Entries.get?_put`, `Entries.sorted_put`, `Entries.ext` — `put` seen through `get?`, and that
  sorted entries are determined by their values.
-/

namespace Excerpt

/-- Keys with their values. -/
abbrev Entries (α : Type) := List (String × α)

namespace Entries

variable {α : Type}

def get? (key : String) : Entries α → Option α
  | [] => none
  | (k, v) :: es => if k = key then some v else get? key es

/-- Set the value of a key, at its place in the key order. -/
def put (key : String) (value : α) : Entries α → Entries α
  | [] => [(key, value)]
  | (k, v) :: es =>
    if key < k then (key, value) :: (k, v) :: es
    else if k = key then (key, value) :: es
    else (k, v) :: put key value es

/-- The keys strictly increase. -/
def Sorted (es : Entries α) : Prop := es.Pairwise fun a b => a.1 < b.1

def keys (es : Entries α) : List String := es.map Prod.fst

@[simp] theorem get?_nil (key : String) : get? key ([] : Entries α) = none := rfl

theorem get?_cons (key k : String) (v : α) (es : Entries α) :
    get? key ((k, v) :: es) = if k = key then some v else get? key es := rfl

theorem mem_of_get? {key : String} {v : α} {es : Entries α} (h : get? key es = some v) :
    (key, v) ∈ es := by
  induction es with
  | nil => simp at h
  | cons e es ih =>
    obtain ⟨k, w⟩ := e
    rw [get?_cons] at h
    split at h
    · simp_all
    · exact List.mem_cons_of_mem _ (ih h)

theorem get?_eq_none_iff {key : String} {es : Entries α} :
    get? key es = none ↔ ∀ v, (key, v) ∉ es := by
  induction es with
  | nil => simp
  | cons e es ih =>
    obtain ⟨k, w⟩ := e
    rw [get?_cons]
    by_cases hk : k = key
    · subst hk
      rw [if_pos rfl]
      exact ⟨fun h => by simp at h, fun h => absurd List.mem_cons_self (h w)⟩
    · rw [if_neg hk, ih]
      simp [Ne.symm hk]

@[simp] theorem get?_put_self (key : String) (value : α) (es : Entries α) :
    get? key (put key value es) = some value := by
  induction es with
  | nil => simp [put, get?]
  | cons e es ih =>
    obtain ⟨k, v⟩ := e
    rw [put]
    split
    · simp [get?]
    · split
      · simp [get?]
      · next hk => rw [get?_cons, if_neg hk, ih]

theorem get?_put_of_ne {key other : String} (h : other ≠ key) (value : α) (es : Entries α) :
    get? other (put key value es) = get? other es := by
  induction es with
  | nil => simp [put, get?, Ne.symm h]
  | cons e es ih =>
    obtain ⟨k, v⟩ := e
    rw [put]
    split
    · rw [get?_cons, if_neg (Ne.symm h)]
    · split
      · next hk => subst hk; rw [get?_cons, get?_cons, if_neg (Ne.symm h), if_neg (Ne.symm h)]
      · rw [get?_cons, get?_cons, ih]

/-- Setting a value changes that value alone. -/
theorem get?_put (key other : String) (value : α) (es : Entries α) :
    get? other (put key value es) = if other = key then some value else get? other es := by
  by_cases h : other = key
  · subst h; simp
  · rw [if_neg h, get?_put_of_ne h]

theorem mem_put {key : String} {value : α} {es : Entries α} {e : String × α}
    (h : e ∈ put key value es) : e = (key, value) ∨ e ∈ es := by
  induction es with
  | nil => simpa [put] using h
  | cons e' es ih =>
    obtain ⟨k, v⟩ := e'
    rw [put] at h
    split at h
    · simpa using h
    · split at h
      · rcases List.mem_cons.1 h with h | h
        · exact .inl h
        · exact .inr (List.mem_cons_of_mem _ h)
      · rcases List.mem_cons.1 h with h | h
        · exact .inr (h ▸ List.mem_cons_self)
        · exact (ih h).imp_right (List.mem_cons_of_mem _)

@[simp] theorem sorted_nil : Sorted ([] : Entries α) := List.Pairwise.nil

theorem sorted_cons {e : String × α} {es : Entries α} :
    Sorted (e :: es) ↔ (∀ d ∈ es, e.1 < d.1) ∧ Sorted es := List.pairwise_cons

/-- Setting a value keeps the key order. -/
theorem sorted_put {key : String} {value : α} {es : Entries α} (h : Sorted es) :
    Sorted (put key value es) := by
  induction es with
  | nil => simp [put, Sorted]
  | cons e es ih =>
    obtain ⟨k, v⟩ := e
    have h' := sorted_cons.1 h
    rw [put]
    split
    · next hlt =>
      refine sorted_cons.2 ⟨fun d hd => ?_, h⟩
      rcases List.mem_cons.1 hd with rfl | hd
      · exact hlt
      · exact String.lt_trans hlt (h'.1 d hd)
    · split
      · next hk => subst hk; exact sorted_cons.2 ⟨h'.1, h'.2⟩
      · next hlt hk =>
        refine sorted_cons.2 ⟨fun d hd => ?_, ih h'.2⟩
        rcases mem_put hd with rfl | hd
        · exact Decidable.byContradiction fun hn =>
            hk (String.le_antisymm (String.not_lt.1 hlt) (String.not_lt.1 hn))
        · exact h'.1 d hd

theorem get?_of_mem {es : Entries α} (h : Sorted es) {key : String} {v : α}
    (hm : (key, v) ∈ es) : get? key es = some v := by
  induction es with
  | nil => simp at hm
  | cons e es ih =>
    obtain ⟨k, w⟩ := e
    have h' := sorted_cons.1 h
    rw [get?_cons]
    rcases List.mem_cons.1 hm with hm | hm
    · cases hm; simp
    · have hlt : k < key := h'.1 _ hm
      have hne : k ≠ key := fun hk => String.lt_irrefl key (hk ▸ hlt)
      rw [if_neg hne]
      exact ih h'.2 hm

/-- Sorted entries with the same values are equal. -/
theorem ext {es fs : Entries α} (he : Sorted es) (hf : Sorted fs)
    (h : ∀ key, get? key es = get? key fs) : es = fs := by
  have mem : ∀ {es fs : Entries α}, Sorted es → (∀ key, get? key es = get? key fs) →
      ∀ e ∈ es, e ∈ fs := fun hs h e hm => mem_of_get? ((h e.1).symm.trans (get?_of_mem hs hm))
  induction es generalizing fs with
  | nil =>
    cases fs with
    | nil => rfl
    | cons f fs => exact absurd (mem hf (fun k => (h k).symm) f List.mem_cons_self) (by simp)
  | cons e es ih =>
    cases fs with
    | nil => exact absurd (mem he h e List.mem_cons_self) (by simp)
    | cons f fs =>
      have he' := sorted_cons.1 he
      have hf' := sorted_cons.1 hf
      have hef : e = f := by
        rcases List.mem_cons.1 (mem he h e List.mem_cons_self) with hm | hm
        · exact hm
        · rcases List.mem_cons.1 (mem hf (fun k => (h k).symm) f List.mem_cons_self) with hm' | hm'
          · exact hm'.symm
          · exact absurd (String.lt_trans (hf'.1 e hm) (he'.1 f hm')) (String.lt_irrefl _)
      subst hef
      have htail : es = fs := by
        refine ih he'.2 hf'.2 fun key => ?_
        have hk := h key
        obtain ⟨k, v⟩ := e
        rw [get?_cons, get?_cons] at hk
        by_cases hkey : k = key
        · subst hkey
          have hn : ∀ {gs : Entries α}, (∀ d ∈ gs, k < d.1) → get? k gs = none := fun hg =>
            get?_eq_none_iff.2 fun v hm => String.lt_irrefl k (hg _ hm)
          rw [hn he'.1, hn hf'.1]
        · simpa [hkey] using hk
      rw [htail]

end Entries

end Excerpt
