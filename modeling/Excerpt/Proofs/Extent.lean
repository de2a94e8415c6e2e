import Excerpt.Proofs.Walking
import Excerpt.Spec.Brackets
import Mathlib.Data.Set.Card
import Mathlib.Order.Bounds.Basic

/-!
# How far a walk goes

A walk ends behind the first bracket that closes its level. Where there is none it goes past the
end of the text, one place further for every bracket that nothing closes.

* `ClosesMore` — more groups are closed than opened, from one place to another;
* `Matches`, `IsUnclosed` — one bracket closes another, and nothing closes a bracket;
* `closing?_add` — groups of two levels are closed one after the other;
* `extent`, `consumed_walk` — how much a walk consumes, from whatever state;
* `isLeast_closesMore`, `matches_of_closing?`, `ncard_isUnclosed` — the same in terms of places;
* `walk_consumes_group` — all together.
-/

namespace Excerpt.Spec

/-- From place `start` up to and with place `j` more groups are closed than opened. -/
def ClosesMore (cs : List Char) (start j : Nat) : Prop :=
  start ≤ j ∧ j < cs.length ∧
    ((cs.take (j + 1)).drop start).count '[' < ((cs.take (j + 1)).drop start).count ']'

/-- The bracket at place `j` closes the one at place `i`: those between them match each other. -/
structure Matches (cs : List Char) (i j : Nat) : Prop where
  lt : i < j
  opens : cs[i]? = some '['
  closes : cs[j]? = some ']'
  between : Balanced ((cs.take j).drop (i + 1))

/-- Nothing closes the bracket at the place. -/
def IsUnclosed (cs : List Char) (i : Nat) : Prop := cs[i]? = some '[' ∧ ∀ j, ¬ Matches cs i j

/-- The number of brackets that nothing closes. -/
def unclosed : List Char → Nat
  | [] => 0
  | c :: cs => if c = '[' ∧ closing? 0 cs = none then unclosed cs + 1 else unclosed cs

/-- How many places a walk of the characters consumes: those up to the bracket that closes its
level; where there is none, all of them, the end of the text, and one for every bracket that nothing
closes. -/
def extent (cs : List Char) : Nat := (closing? 0 cs).getD (cs.length + 1 + unclosed cs)

/-! ### Closing one level after another -/

section Closing

variable {d n : Nat} {c : Char} {cs : List Char}

theorem closing?_close (cs : List Char) : closing? 0 (']' :: cs) = some 1 := by
  rw [closing?, if_pos ⟨rfl, rfl⟩]

theorem closing?_cons (h : ¬(c = ']' ∧ d = 0)) :
    closing? d (c :: cs) = (closing? (nextDepth d c) cs).map (· + 1) := by
  rw [closing?, if_neg h]

/-- **Levels are closed one after the other**, the inner ones first. -/
theorem closing?_add (d e : Nat) (cs : List Char) :
    closing? (d + (e + 1)) cs =
      (closing? d cs).bind fun n => (closing? e (cs.drop n)).map (n + ·) := by
  induction cs generalizing d with
  | nil => rfl
  | cons c cs ih =>
    have houter : ¬(c = ']' ∧ d + (e + 1) = 0) := by omega
    rw [closing?_cons houter]
    by_cases hstop : c = ']' ∧ d = 0
    · -- the inner levels are closed here
      obtain ⟨rfl, rfl⟩ := hstop
      have hnext : nextDepth (0 + (e + 1)) ']' = e := by simp [nextDepth]
      rw [hnext, closing?_close, Option.bind_some, List.drop_one, List.tail_cons]
      simp only [Nat.add_comm]
    · have hnext : nextDepth (d + (e + 1)) c = nextDepth d c + (e + 1) := by
        have hsum := nextDepth_add houter
        have hinner := nextDepth_add hstop
        omega
      rw [hnext, ih, closing?_cons hstop]
      cases closing? (nextDepth d c) cs with
      | none => rfl
      | some n =>
        simp only [Option.bind_some, Option.map_some, List.drop_succ_cons, Option.map_map]
        congr 1
        funext m
        simp only [Function.comp]
        omega

/-- Whatever closes a level closes the groups in it. -/
theorem closing?_zero_ne_none (h : closing? d cs = some n) : closing? 0 cs ≠ none := by
  cases d with
  | zero => simp [h]
  | succ d =>
    intro hnone
    have hsplit := closing?_add 0 d cs
    rw [Nat.zero_add, h, hnone] at hsplit
    cases hsplit

theorem le_length_of_closing? (h : closing? d cs = some n) : n ≤ cs.length := by
  obtain ⟨rfl, hlt⟩ := closing?_eq_some_iff.1 h
  exact hlt

theorem unclosed_cons_of_ne (h : c ≠ '[') : unclosed (c :: cs) = unclosed cs := by
  rw [unclosed, if_neg (fun hc => h hc.1)]

/-- No bracket before the one that closes a level is left open. -/
theorem unclosed_drop (h : closing? d cs = some n) : unclosed (cs.drop n) = unclosed cs := by
  induction cs generalizing d n with
  | nil => cases h
  | cons c cs ih =>
    by_cases hstop : c = ']' ∧ d = 0
    · obtain ⟨rfl, rfl⟩ := hstop
      rw [closing?_close] at h
      cases h
      rw [List.drop_one, List.tail_cons, unclosed_cons_of_ne (by decide)]
    · rw [closing?_cons hstop] at h
      obtain ⟨m, hm, rfl⟩ := Option.map_eq_some_iff.1 h
      rw [List.drop_succ_cons, ih hm, unclosed, if_neg fun hc => closing?_zero_ne_none hm hc.2]

end Closing

/-! ### What a walk consumes -/

section Walks

variable {c : Char} {cs : List Char}

theorem extent_nil : extent [] = 1 := rfl

theorem extent_close : extent (']' :: cs) = 1 := by
  rw [extent, closing?_close, Option.getD_some]

theorem extent_cons (ho : c ≠ '[') (hc : c ≠ ']') : extent (c :: cs) = extent cs + 1 := by
  have hnext : nextDepth 0 c = 0 := by simp [nextDepth, ho, hc]
  rw [extent, extent, closing?_cons (fun h => hc h.1), hnext, unclosed_cons_of_ne ho,
    List.length_cons]
  cases closing? 0 cs with
  | some n => rfl
  | none =>
    simp only [Option.map_none, Option.getD_none]
    omega

/-- **A group and what stands behind it.** A group that is left open reaches past the end, and
behind it there is only the end. -/
theorem extent_open : extent ('[' :: cs) = extent (cs.drop (extent cs)) + extent cs + 1 := by
  have hnext : nextDepth 0 '[' = 0 + (0 + 1) := by decide
  have houter : closing? 0 ('[' :: cs) =
      ((closing? 0 cs).bind fun n => (closing? 0 (cs.drop n)).map (n + ·)).map (· + 1) := by
    rw [closing?_cons (by decide), hnext, closing?_add]
  cases hclose : closing? 0 cs with
  | some n =>
    have hcs : extent cs = n := by rw [extent, hclose, Option.getD_some]
    have hle : n ≤ cs.length := le_length_of_closing? hclose
    rw [hcs, extent, extent, houter, hclose, unclosed, if_neg (by simp [hclose]),
      unclosed_drop hclose, Option.bind_some, List.length_cons, List.length_drop]
    cases closing? 0 (cs.drop n) with
    | some m =>
      simp only [Option.map_some, Option.getD_some]
      omega
    | none =>
      simp only [Option.map_none, Option.getD_none]
      omega
  | none =>
    have hcs : extent cs = cs.length + 1 + unclosed cs := by rw [extent, hclose, Option.getD_none]
    have hdrop : cs.drop (extent cs) = [] := List.drop_of_length_le (by omega)
    rw [hdrop, extent_nil, hcs, extent, houter, hclose, unclosed, if_pos ⟨rfl, hclose⟩,
      List.length_cons, Option.bind_none, Option.map_none, Option.getD_none]
    omega

/-- **What a walk consumes** depends on the characters alone. -/
theorem consumed_walk {o : Options} (level : Level) (cs : List Char) (i : Nat) (p : Pending)
    {w : Walk} (hw : walk o level cs i p = .ok w) : w.consumed = extent cs := by
  induction level, cs, i, p using walk.induct generalizing w with
  | case1 level i p =>
    obtain ⟨-, rfl⟩ := walk_nil_ok.1 hw
    rfl
  | case2 level c cs i p ihComma ihInner ihBehind ihDot ihChar =>
    rcases delimiter_cases c with rfl | rfl | rfl | rfl | hdel
    -- a comma
    · obtain ⟨-, tail, htail, rfl⟩ := walk_comma_ok.1 hw
      rw [extent_cons (by decide) (by decide), ihComma htail]
    -- a dot
    · obtain ⟨-, -, tail, htail, rfl⟩ := walk_dot_ok.1 hw
      rw [extent_cons (by decide) (by decide), ihDot htail]
    -- an opening bracket: the level goes on where the group in it ends
    · obtain ⟨-, -, nested, hnested, tail, htail, rfl⟩ := walk_open_ok.1 hw
      have hbehind := ihBehind nested htail
      rw [ihInner hnested] at hbehind
      rw [extent_open, ihInner hnested, hbehind]
    -- a closing bracket
    · obtain ⟨-, rfl⟩ := walk_close_ok.1 hw
      rw [extent_close]
    -- a character of a key
    · have hne := not_isDelimiter_iff.1 hdel
      obtain ⟨-, tail, htail, rfl⟩ := (walk_char_ok hdel).1 hw
      rw [extent_cons hne.2.2.1 hne.2.2.2, ihChar htail]

end Walks

/-! ### Places of brackets -/

section Counts

variable {d n : Nat} {c : Char} {cs : List Char}

/-- What closes below the next depth closes below this one together with the character. -/
theorem count_take_cons (h : ¬(c = ']' ∧ d = 0)) (cs : List Char) (m : Nat) :
    ((c :: cs).take (m + 1)).count ']' + ((cs.take m).count '[' + nextDepth d c) =
      ((c :: cs).take (m + 1)).count '[' + d + (cs.take m).count ']' := by
  have hnext := nextDepth_add h
  rw [List.take_succ_cons, ← List.singleton_append, List.count_append, List.count_append]
  omega

/-- Where no bracket closes nothing, no beginning of the text closes more than is open. -/
theorem count_le_of_closing? (h : closing? d cs = none) (m : Nat) :
    (cs.take m).count ']' ≤ (cs.take m).count '[' + d := by
  induction cs generalizing d m with
  | nil => simp
  | cons c cs ih =>
    by_cases hstop : c = ']' ∧ d = 0
    · rw [closing?, if_pos hstop] at h
      cases h
    · rw [closing?_cons hstop, Option.map_eq_none_iff] at h
      cases m with
      | zero => simp
      | succ m =>
        have hle := ih h m
        have hcons := count_take_cons hstop cs m
        omega

/-- The first bracket that closes nothing stands behind characters that close what is open. -/
theorem exists_of_closing? (h : closing? d cs = some n) :
    ∃ m, n = m + 1 ∧ cs[m]? = some ']' ∧ (cs.take m).count ']' = (cs.take m).count '[' + d ∧
      ∀ k ≤ m, (cs.take k).count ']' ≤ (cs.take k).count '[' + d := by
  induction cs generalizing d n with
  | nil => cases h
  | cons c cs ih =>
    by_cases hstop : c = ']' ∧ d = 0
    · obtain ⟨rfl, rfl⟩ := hstop
      rw [closing?_close] at h
      cases h
      exact ⟨0, rfl, rfl, rfl, fun k hk => by simp [Nat.le_zero.1 hk]⟩
    · rw [closing?_cons hstop] at h
      obtain ⟨n, hn, rfl⟩ := Option.map_eq_some_iff.1 h
      obtain ⟨m, rfl, hget, hcount, hle⟩ := ih hn
      refine ⟨m + 1, rfl, hget, ?_, fun k hk => ?_⟩
      · have hcons := count_take_cons hstop cs m
        omega
      · cases k with
        | zero => simp
        | succ k =>
          have hk := hle k (Nat.le_of_succ_le_succ hk)
          have hcons := count_take_cons hstop cs k
          omega

end Counts

section Places

variable {cs : List Char} {start i j n : Nat}

theorem isLeast_closesMore (h : closing? 0 (cs.drop start) = some n) :
    ∃ j, n = j - start + 1 ∧ IsLeast {j | ClosesMore cs start j} j := by
  obtain ⟨m, rfl, hget, hcount, hle⟩ := exists_of_closing? h
  rw [List.getElem?_drop] at hget
  have hlen : start + m < cs.length := (List.getElem?_eq_some_iff.1 hget).1
  refine ⟨start + m, by omega, ⟨by omega, hlen, ?_⟩, fun k hk => ?_⟩
  · have htake : (cs.drop start).take (m + 1) = (cs.drop start).take m ++ [']'] := by
      rw [List.take_add_one, List.getElem?_drop, hget]
      rfl
    rw [List.drop_take, show start + m + 1 - start = m + 1 by omega, htake, List.count_append,
      List.count_append]
    have hshut : [']'].count ']' = 1 ∧ [']'].count '[' = 0 := by decide
    omega
  · obtain ⟨hstart, -, hmore⟩ := hk
    rw [List.drop_take] at hmore
    by_contra hlt
    have hk := hle (k + 1 - start) (by omega)
    omega

theorem not_closesMore (h : closing? 0 (cs.drop start) = none) (j : Nat) :
    ¬ ClosesMore cs start j := by
  rintro ⟨-, -, hmore⟩
  have hle := count_le_of_closing? h (j + 1 - start)
  rw [List.drop_take] at hmore
  omega

theorem matches_of_closing? (hi : cs[i]? = some '[') (h : closing? 0 (cs.drop (i + 1)) = some n) :
    Matches cs i (i + n) := by
  obtain ⟨m, rfl, hget, hcount, hle⟩ := exists_of_closing? h
  rw [List.getElem?_drop] at hget
  refine ⟨by omega, hi, by rw [← hget]; congr 1; omega, ?_⟩
  rw [List.drop_take, show i + (m + 1) - (i + 1) = m by omega]
  refine ⟨fun k => ?_, hcount⟩
  rw [List.take_take]
  exact hle _ (Nat.min_le_right _ _)

theorem not_matches (h : closing? 0 (cs.drop (i + 1)) = none) (j : Nat) : ¬ Matches cs i j := by
  intro hm
  have hlen : j < cs.length := (List.getElem?_eq_some_iff.1 hm.closes).1
  have hlt := hm.lt
  -- together with the bracket that closes, more groups are closed than opened
  refine not_closesMore h j ⟨hlt, hlen, ?_⟩
  have hbetween := hm.between.2
  have hle : i + 1 ≤ (cs.take j).length := by rw [List.length_take]; omega
  rw [List.take_add_one, hm.closes, Option.toList_some, List.drop_append_of_le_length hle,
    List.count_append, List.count_append]
  have hshut : [']'].count ']' = 1 ∧ [']'].count '[' = 0 := by decide
  omega

theorem isUnclosed_iff :
    IsUnclosed cs i ↔ cs[i]? = some '[' ∧ closing? 0 (cs.drop (i + 1)) = none := by
  refine and_congr_right fun hi => ⟨fun h => ?_, not_matches⟩
  cases hc : closing? 0 (cs.drop (i + 1)) with
  | none => rfl
  | some n => exact absurd (matches_of_closing? hi hc) (h _)

theorem isUnclosed_cons_zero {c : Char} :
    IsUnclosed (c :: cs) 0 ↔ c = '[' ∧ closing? 0 cs = none := by
  simp [isUnclosed_iff]

theorem isUnclosed_cons_succ {c : Char} : IsUnclosed (c :: cs) (i + 1) ↔ IsUnclosed cs i := by
  simp [isUnclosed_iff]

theorem isUnclosed_drop : IsUnclosed (cs.drop start) i ↔ IsUnclosed cs (start + i) := by
  rw [isUnclosed_iff, isUnclosed_iff, List.getElem?_drop, List.drop_drop, Nat.add_assoc]

theorem finite_isUnclosed (cs : List Char) : {i | IsUnclosed cs i}.Finite :=
  (Set.finite_lt_nat cs.length).subset fun _ hi => (List.getElem?_eq_some_iff.1 hi.1).1

/-- The brackets that nothing closes are counted by `unclosed`. -/
theorem ncard_isUnclosed (cs : List Char) : {i | IsUnclosed cs i}.ncard = unclosed cs := by
  induction cs with
  | nil =>
    have hnone : {i | IsUnclosed [] i} = ∅ := by simp [IsUnclosed]
    rw [hnone, Set.ncard_empty, unclosed]
  | cons c cs ih =>
    have hlater : (Nat.succ '' {i | IsUnclosed cs i}).ncard = unclosed cs := by
      rw [Set.ncard_image_of_injective _ Nat.succ_injective, ih]
    rw [unclosed]
    split
    next hc =>
      have hset : {i | IsUnclosed (c :: cs) i} = insert 0 (Nat.succ '' {i | IsUnclosed cs i}) := by
        ext i
        cases i with
        | zero => simp [isUnclosed_cons_zero, hc]
        | succ i => simp [isUnclosed_cons_succ]
      rw [hset, Set.ncard_insert_of_notMem (by simp) ((finite_isUnclosed cs).image _), hlater]
    next hc =>
      have hset : {i | IsUnclosed (c :: cs) i} = Nat.succ '' {i | IsUnclosed cs i} := by
        ext i
        cases i with
        | zero => simpa [isUnclosed_cons_zero] using hc
        | succ i => simp [isUnclosed_cons_succ]
      rw [hset, hlater]

theorem ncard_isUnclosed_from (cs : List Char) (start : Nat) :
    {i | start ≤ i ∧ IsUnclosed cs i}.ncard = unclosed (cs.drop start) := by
  have hset : {i | start ≤ i ∧ IsUnclosed cs i} =
      (start + ·) '' {i | IsUnclosed (cs.drop start) i} := by
    ext i
    constructor
    · rintro ⟨hle, hi⟩
      refine ⟨i - start, isUnclosed_drop.2 ?_, Nat.add_sub_cancel' hle⟩
      rwa [Nat.add_sub_cancel' hle]
    · rintro ⟨k, hk, rfl⟩
      exact ⟨Nat.le_add_right _ _, isUnclosed_drop.1 hk⟩
  rw [hset, Set.ncard_image_of_injective _ (add_right_injective start), ncard_isUnclosed]

end Places

/-! ### Both together -/

/-- **A walk consumes its group and nothing else.** It ends with the first place up to which more
groups are closed than opened. Where there is none it consumes what is left, the end of the text,
and one place more for every bracket behind its start that nothing closes. So whoever has met a
bracket goes on right behind the one that closes it, or, if nothing does, past the end of the
text. -/
theorem walk_consumes_group {o : Options} {level : Level} {cs : List Char} {start : Nat} {w : Walk}
    (hw : walk o level (cs.drop start) start (.start level) = .ok w) :
    (∀ j, IsLeast {j | ClosesMore cs start j} j → w.consumed = j - start + 1) ∧
    ((∀ j, ¬ ClosesMore cs start j) →
      w.consumed = cs.length - start + 1 + {i | start ≤ i ∧ IsUnclosed cs i}.ncard) ∧
    ∀ i, i + 1 = start → cs[i]? = some '[' →
      (∃ j, Matches cs i j ∧ i + (w.consumed + 1) = j + 1) ∨
        IsUnclosed cs i ∧ cs.length < i + (w.consumed + 1) := by
  have hconsumed := consumed_walk level _ _ _ hw
  rw [extent] at hconsumed
  cases hclose : closing? 0 (cs.drop start) with
  | some n =>
    rw [hclose, Option.getD_some] at hconsumed
    obtain ⟨j, hn, hj⟩ := isLeast_closesMore hclose
    refine ⟨fun k hk => ?_, fun hnone => absurd hj.1 (hnone j), fun i hi hopen => ?_⟩
    · rw [hconsumed, hn, hj.unique hk]
    · subst hi
      refine .inl ⟨i + n, matches_of_closing? hopen hclose, ?_⟩
      rw [hconsumed, Nat.add_assoc]
  | none =>
    rw [hclose, Option.getD_none, List.length_drop] at hconsumed
    refine ⟨fun j hj => absurd hj.1 (not_closesMore hclose j), fun _ => ?_, fun i hi hopen => ?_⟩
    · rw [hconsumed, ncard_isUnclosed_from]
    · subst hi
      refine .inr ⟨isUnclosed_iff.2 ⟨hopen, hclose⟩, ?_⟩
      omega

/-- A group with a group in it, and behind it two groups that are left open. -/
theorem walk_consumes_group_closed_and_open :
    walk .default ⟨["x"], some 1⟩ ("x[a[b],c]d[e[f".toList.drop 2) 2 (.start ⟨["x"], some 1⟩) =
        .ok ⟨[⟨["x", "a"], "b"⟩, ⟨["x"], "c"⟩], 7⟩ ∧
      Matches "x[a[b],c]d[e[f".toList 1 8 ∧
    walk .default ⟨["d"], some 10⟩ ("x[a[b],c]d[e[f".toList.drop 11) 11
          (.start ⟨["d"], some 10⟩) = .ok ⟨[⟨["d", "e"], "f"⟩], 5⟩ ∧
      {i | 11 ≤ i ∧ IsUnclosed "x[a[b],c]d[e[f".toList i}.ncard = 1 := by
  have hclosed : walk .default ⟨["x"], some 1⟩ ("x[a[b],c]d[e[f".toList.drop 2) 2
      (.start ⟨["x"], some 1⟩) = .ok ⟨[⟨["x", "a"], "b"⟩, ⟨["x"], "c"⟩], 7⟩ := by decide +kernel
  have hopen : walk .default ⟨["d"], some 10⟩ ("x[a[b],c]d[e[f".toList.drop 11) 11
      (.start ⟨["d"], some 10⟩) = .ok ⟨[⟨["d", "e"], "f"⟩], 5⟩ := by decide +kernel
  have hlength : "x[a[b],c]d[e[f".toList.length = 14 := by decide
  refine ⟨hclosed, ?_, hopen, ?_⟩
  · rcases (walk_consumes_group hclosed).2.2 1 rfl (by decide) with ⟨j, hj, hplace⟩ | ⟨-, hlt⟩
    · have hplace : 1 + (7 + 1) = j + 1 := hplace
      obtain rfl : j = 8 := by omega
      exact hj
    · rw [hlength] at hlt
      exact absurd hlt (by decide)
  · have hcount : 5 = 14 - 11 + 1 + _ :=
      (walk_consumes_group hopen).2.1 (not_closesMore (by decide))
    omega

end Excerpt.Spec
