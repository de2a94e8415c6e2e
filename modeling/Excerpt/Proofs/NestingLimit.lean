import Excerpt.Proofs.OnePass
import Excerpt.Spec.Brackets

/-!
# The depth limit and the nesting of groups

The depth limit bounds trajectories. A strict reader bounds the nesting of groups with it. A lenient
reader counts the keys of a trajectory afresh behind a closed group, so that groups nest as deeply
as one likes below a limit of two.

* `NestsWithin` — no more groups than a limit are open at any place that is read;
* `reach` — the longest trajectory of a text;
* `lenient_ok_iff` — a lenient reader accepts the texts whose reach is within the limit;
* `strict_nestsFrom` — what a strict reader accepts nests within the limit;
* `nestsWithin_depthLimit_iff` — when the limit bounds the nesting.
-/

namespace Excerpt.Spec

/-- At no place that is read are more than `limit` groups open. -/
def NestsWithin (limit : Nat) (cs : List Char) : Prop :=
  ∀ n, openGroups ((readPart cs).take n) ≤ limit

/-- The length of the longest trajectory that a dot or a bracket completes, where `lengths` are
those of the open groups, the innermost first, and `length` is that of the trajectory so far. Behind
a closed group the trajectory starts from nothing. -/
def reachFrom (lengths : List Nat) (length : Nat) : List Char → Nat
  | [] => 0
  | c :: cs =>
    match c with
    | ',' => reachFrom lengths (lengths.headD 0) cs
    | '.' => max (length + 1) (reachFrom lengths (length + 1) cs)
    | '[' => max (length + 1) (reachFrom ((length + 1) :: lengths) (length + 1) cs)
    | ']' =>
      match lengths with
      | [] => 0
      | _ :: lengths => reachFrom lengths 0 cs
    | _ => reachFrom lengths length cs

/-- The length of the longest trajectory that a dot or a bracket of a text completes. -/
def reach (cs : List Char) : Nat := reachFrom [] 0 cs

/-! ### Nesting, one character after another -/

/-- At no place that is read behind `depth` open groups are more than `limit` groups open. -/
def NestsFrom (limit depth : Nat) (cs : List Char) : Prop :=
  ∀ n, depth + ((readPartFrom depth cs).take n).count '[' ≤
    limit + ((readPartFrom depth cs).take n).count ']'

theorem nestsWithin_iff {limit : Nat} {cs : List Char} :
    NestsWithin limit cs ↔ NestsFrom limit 0 cs := by
  unfold NestsWithin NestsFrom openGroups readPart
  refine forall_congr' fun n => ?_
  omega

section Nesting

variable {limit depth : Nat} {cs : List Char}

theorem NestsFrom.depth_le (h : NestsFrom limit depth cs) : depth ≤ limit := by
  simpa using h 0

theorem nestsFrom_nil : NestsFrom limit depth [] ↔ depth ≤ limit := by
  simp [NestsFrom, readPartFrom]

theorem nestsFrom_stop : NestsFrom limit 0 (']' :: cs) := by
  simp [NestsFrom, readPartFrom]

theorem nestsFrom_cons {c : Char} (hc : ¬(c = ']' ∧ depth = 0)) :
    NestsFrom limit depth (c :: cs) ↔ depth ≤ limit ∧ NestsFrom limit (nextDepth depth c) cs := by
  have hread : ∀ n, (readPartFrom depth (c :: cs)).take (n + 1) =
      [c] ++ (readPartFrom (nextDepth depth c) cs).take n := fun n => by
    rw [readPartFrom, if_neg hc, List.take_succ_cons, List.singleton_append]
  have hnext := nextDepth_add hc
  constructor
  · intro h
    refine ⟨h.depth_le, fun n => ?_⟩
    have hn := h (n + 1)
    rw [hread, List.count_append, List.count_append] at hn
    omega
  · rintro ⟨hd, h⟩ n
    cases n with
    | zero => simpa using hd
    | succ n =>
      have hn := h n
      rw [hread, List.count_append, List.count_append]
      omega

theorem nestsFrom_open :
    NestsFrom limit depth ('[' :: cs) ↔ depth ≤ limit ∧ NestsFrom limit (depth + 1) cs :=
  nestsFrom_cons (by simp)

theorem nestsFrom_close :
    NestsFrom limit (depth + 1) (']' :: cs) ↔ depth + 1 ≤ limit ∧ NestsFrom limit depth cs :=
  nestsFrom_cons (by simp)

theorem nestsFrom_other {c : Char} (h : c ≠ '[') (h' : c ≠ ']') :
    NestsFrom limit depth (c :: cs) ↔ depth ≤ limit ∧ NestsFrom limit depth cs := by
  have hnext : nextDepth depth c = depth := by simp [nextDepth, h, h']
  rw [nestsFrom_cons (by simp [h']), hnext]

end Nesting

/-! ### The lenient reader -/

section Lenient

open Machine

variable {o : Options} {stack : List OpenGroup} {p : Pending} {found : List Selection} {i : Nat}
  {last : Option Char} {cs : List Char}

/-- The lengths of the trajectories that the open groups start from. -/
def lengths (stack : List OpenGroup) : List Nat := stack.map fun g => g.keys.length

theorem length_inherited : (innermost stack).inherited.length = (lengths stack).headD 0 := by
  cases stack <;> rfl

theorem exists_checkDepth_ok {depth : Nat} {x : Except Fault (List Selection)} :
    (∃ r, (checkDepth o depth i >>= fun _ => x) = .ok r) ↔
      depth ≤ o.depthLimit ∧ ∃ r, x = .ok r := by
  simp only [check_eq_ok, checkDepth_eq_ok, exists_and_left]

theorem heed_lenient_bind (ho : o.mode = .lenient) {objection : Option Fault}
    {x : Except Fault (List Selection)} : (heed o objection >>= fun _ => x) = x := by
  rw [heed_lenient ho]
  rfl

/-- **A lenient reader accepts the texts whose reach is within the limit.** -/
theorem lenient_ok_iff (ho : o.mode = .lenient) (hl : Agrees stack p i last) :
    (∃ r, (ofPending stack p found).runFrom o i last cs = .ok r) ↔
      reachFrom (lengths stack) p.trajectory.length cs ≤ o.depthLimit := by
  induction cs generalizing stack p found i last with
  | nil => simp [runFrom_nil hl, heed_lenient_bind ho, reachFrom]
  | cons c cs ih =>
    rcases delimiter_cases c with rfl | rfl | rfl | rfl | hdel
    -- a comma
    · rw [runFrom_comma, heed_lenient_bind ho, ih (agrees_of_last rfl), reachFrom]
      simp [Pending.nextSibling, length_inherited]
    -- a dot
    · rw [runFrom_dot, heed_lenient_bind ho, exists_checkDepth_ok, ih (agrees_of_last rfl),
        reachFrom, Nat.max_le, Pending.length_descend]
    -- an opening bracket
    · rw [runFrom_open, heed_lenient_bind ho, exists_checkDepth_ok, ih (by simp [Agrees]),
        reachFrom, Nat.max_le]
      simp [lengths, Pending.start]
    -- a closing bracket
    · cases stack with
      | nil => simp [runFrom_close_nil, heed_lenient_bind ho, reachFrom, lengths]
      | cons g stack =>
        rw [runFrom_close_cons, heed_lenient_bind ho, ih (agrees_of_last rfl)]
        simp [reachFrom, lengths, Pending.behindGroup]
    -- a character of a key
    · have hne := not_isDelimiter_iff.1 hdel
      rw [runFrom_char hdel, heed_lenient_bind ho, ih (agrees_of_last rfl)]
      simp [reachFrom, hne, Pending.extend]

end Lenient

/-! ### The strict reader -/

section Strict

open Machine

variable {o : Options} {stack : List OpenGroup} {p : Pending} {found : List Selection} {i : Nat}
  {last : Option Char} {cs : List Char}

/-- The trajectories of open groups are within a limit, and each is longer than those of the groups
around it: this bounds how many groups are open. -/
def Grows (limit : Nat) : List OpenGroup → Prop
  | [] => True
  | g :: stack => stack.length + 1 ≤ g.keys.length ∧ g.keys.length ≤ limit ∧ Grows limit stack

theorem Grows.length_le {limit : Nat} (h : Grows limit stack) : stack.length ≤ limit := by
  cases stack with
  | nil => exact Nat.zero_le _
  | cons g stack =>
    obtain ⟨h1, h2, -⟩ := h
    rw [List.length_cons]
    omega

theorem Grows.length_le_inherited {limit : Nat} (h : Grows limit stack) :
    stack.length ≤ (innermost stack).inherited.length := by
  cases stack with
  | nil => exact Nat.zero_le _
  | cons g stack => exact h.1

theorem Grows.opened {limit : Nat} (h : Grows limit stack)
    (hlen : stack.length ≤ p.trajectory.length) (hd : p.trajectory.length + 1 ≤ limit) :
    Grows limit (⟨p.groupKeys, i⟩ :: stack) := by
  have hkeys : p.groupKeys.length = p.trajectory.length + 1 := p.length_groupKeys
  exact ⟨hkeys ▸ Nat.succ_le_succ hlen, hkeys ▸ hd, h⟩

/-- **What a strict reader accepts nests within the limit.** No bracket follows a closed group, so
that the trajectory of an open group has a key for every group around it. -/
theorem strict_nestsFrom (ho : o.mode = .strict) (hs : Grows o.depthLimit stack)
    (hp : p.afterGroup = false → stack.length ≤ p.trajectory.length) {r : List Selection}
    (hr : (ofPending stack p found).runFrom o i last cs = .ok r) :
    NestsFrom o.depthLimit stack.length cs := by
  induction cs generalizing stack p found i last with
  | nil => exact nestsFrom_nil.2 hs.length_le
  | cons c cs ih =>
    rcases delimiter_cases c with rfl | rfl | rfl | rfl | hdel
    -- a comma
    · rw [runFrom_comma, check_eq_ok] at hr
      exact (nestsFrom_other (by decide) (by decide)).2
        ⟨hs.length_le, ih hs (fun _ => hs.length_le_inherited) hr.2⟩
    -- a dot
    · rw [runFrom_dot, check_eq_ok, check_eq_ok] at hr
      obtain ⟨hheed, -, hr⟩ := hr
      have ha := (objection_dot.1 ((heed_strict ho).1 hheed)).1
      have hlen := hp ha
      refine (nestsFrom_other (by decide) (by decide)).2 ⟨hs.length_le, ih hs (fun _ => ?_) hr⟩
      rw [Pending.length_descend]
      omega
    -- an opening bracket
    · rw [runFrom_open, check_eq_ok, check_eq_ok, checkDepth_eq_ok, Pending.length_groupKeys] at hr
      obtain ⟨hheed, hd, hr⟩ := hr
      have ha := (objection_open.1 ((heed_strict ho).1 hheed)).1
      have hgrows := hs.opened (i := i) (hp ha) hd
      exact nestsFrom_open.2 ⟨hs.length_le, ih hgrows (fun _ => hgrows.length_le_inherited) hr⟩
    -- a closing bracket
    · cases stack with
      | nil => exact nestsFrom_stop
      | cons g stack =>
        rw [runFrom_close_cons, check_eq_ok] at hr
        exact nestsFrom_close.2 ⟨hs.length_le, ih hs.2.2 (by simp [Pending.behindGroup]) hr.2⟩
    -- a character of a key
    · have hne := not_isDelimiter_iff.1 hdel
      rw [runFrom_char hdel, check_eq_ok] at hr
      have hrest := ih (p := p.extend i c) hs hp hr.2
      exact (nestsFrom_other hne.2.2.1 hne.2.2.2).2 ⟨hs.length_le, hrest⟩

end Strict

/-! ### Limits below two -/

/-- Below a limit of one a group has no room for another, and without one there are no groups. -/
theorem nestsFrom_of_reachFrom_le_one {limit : Nat} (hl : limit ≤ 1) {lengths : List Nat}
    {length : Nat} {cs : List Char} (hd : lengths.length ≤ limit) (hpos : ∀ n ∈ lengths, 0 < n)
    (hlen : lengths ≠ [] → 0 < length) (hr : reachFrom lengths length cs ≤ limit) :
    NestsFrom limit lengths.length cs := by
  induction cs generalizing lengths length with
  | nil => exact nestsFrom_nil.2 hd
  | cons c cs ih =>
    rcases delimiter_cases c with rfl | rfl | rfl | rfl | hdel
    -- a comma
    · refine (nestsFrom_other (by decide) (by decide)).2 ⟨hd, ih hd hpos (fun hne => ?_) hr⟩
      cases lengths with
      | nil => exact absurd rfl hne
      | cons n lengths => exact hpos n (by simp)
    -- a dot
    · rw [reachFrom, Nat.max_le] at hr
      exact (nestsFrom_other (by decide) (by decide)).2
        ⟨hd, ih hd hpos (fun _ => Nat.succ_pos _) hr.2⟩
    -- an opening bracket
    · rw [reachFrom, Nat.max_le] at hr
      -- a group inside a group would have a trajectory of two keys
      have hnil : lengths = [] := Decidable.byContradiction fun hne => by
        have := hlen hne
        omega
      subst hnil
      have hdeep : [length + 1].length ≤ limit := by simp; omega
      exact nestsFrom_open.2 ⟨hd, ih hdeep (by simp) (fun _ => Nat.succ_pos _) hr.2⟩
    -- a closing bracket
    · cases lengths with
      | nil => exact nestsFrom_stop
      | cons n lengths =>
        have hnil : lengths = [] := List.eq_nil_of_length_eq_zero (by simp at hd; omega)
        subst hnil
        exact nestsFrom_close.2 ⟨hd, ih (Nat.zero_le _) (by simp) (by simp) hr⟩
    -- a character of a key
    · have hne := not_isDelimiter_iff.1 hdel
      have hr' : reachFrom lengths length cs ≤ limit := by simpa [reachFrom, hne] using hr
      exact (nestsFrom_other hne.2.2.1 hne.2.2.2).2 ⟨hd, ih hd hpos hlen hr'⟩

/-! ### Groups behind closed groups -/

/-- A group that closes at once and another behind it, some times over: every time one more group
stays open. -/
def staircase : Nat → List Char
  | 0 => []
  | n + 1 => '[' :: ']' :: '[' :: staircase n

theorem reachFrom_staircase (lengths : List Nat) (n : Nat) :
    reachFrom lengths 1 (staircase n) ≤ 2 := by
  induction n generalizing lengths with
  | zero => simp [staircase, reachFrom]
  | succ n ih =>
    have hrest : reachFrom ((0 + 1) :: lengths) (0 + 1) (staircase n) ≤ 2 := ih (1 :: lengths)
    simp only [staircase, reachFrom]
    omega

theorem nestsFrom_staircase {limit depth n : Nat} (h : NestsFrom limit depth (staircase n)) :
    depth + n ≤ limit := by
  induction n generalizing depth with
  | zero => exact h.depth_le
  | succ n ih =>
    have hdeep := ih (nestsFrom_open.1 (nestsFrom_close.1 (nestsFrom_open.1 h).2).2).2
    omega

theorem compact_staircase (n : Nat) :
    Text.compact (String.ofList ('[' :: staircase n)) = '[' :: staircase n := by
  have hblank : Text.isBlank '[' = false ∧ Text.isBlank ']' = false := by decide
  have hstairs : (staircase n).filter (fun c => !Text.isBlank c) = staircase n := by
    induction n with
    | zero => rfl
    | succ n ih => simp [staircase, hblank, ih]
  simp [Text.compact, hblank, hstairs]

/-! ### When the limit bounds the nesting -/

theorem parse_lenient_ok_iff {o : Options} (ho : o.mode = .lenient) (text : String) :
    (∃ ks, KeySpec.parse o text = .ok ks) ↔ reach (Text.compact text) ≤ o.depthLimit := by
  have hiff : (∃ r, Machine.run o (Text.compact text) = .ok r) ↔
      reach (Text.compact text) ≤ o.depthLimit := lenient_ok_iff ho Machine.agrees_start
  rw [parse_eq_run, ← hiff]
  cases Machine.run o (Text.compact text) <;> simp [Except.map]

theorem nestsWithin_of_strict {o : Options} (ho : o.mode = .strict) {text : String} {ks : KeySpec}
    (h : KeySpec.parse o text = .ok ks) : NestsWithin o.depthLimit (Text.compact text) := by
  have hgrows : Grows o.depthLimit [] := trivial
  have hrun : (Machine.ofPending [] (.start .top) []).runFrom o 0 none (Text.compact text) =
      .ok ks.selections := parse_eq_ok_iff_run.1 h
  exact nestsWithin_iff.2 (strict_nestsFrom ho hgrows (fun _ => Nat.zero_le _) hrun)

/-- **When the depth limit bounds the nesting of groups.** A text that is accepted nests within the
limit just if the reader is strict, or the text does so anyway, or its reach exceeds the limit, so
that it is not accepted. This holds of all texts just if the reader is strict or the limit is below
two. -/
theorem nestsWithin_depthLimit_iff (o : Options) :
    (∀ text, (∀ ks, KeySpec.parse o text = .ok ks → NestsWithin o.depthLimit (Text.compact text)) ↔
      o.mode = .strict ∨ NestsWithin o.depthLimit (Text.compact text) ∨
        o.depthLimit < reach (Text.compact text)) ∧
    ((∀ text ks, KeySpec.parse o text = .ok ks → NestsWithin o.depthLimit (Text.compact text)) ↔
      o.mode = .strict ∨ o.depthLimit ≤ 1) := by
  have hmode : o.mode = .strict ∨ o.mode = .lenient := by cases o.mode <;> simp
  constructor
  · intro text
    constructor
    · intro h
      rcases hmode with hm | hm
      · exact .inl hm
      · by_cases hr : o.depthLimit < reach (Text.compact text)
        · exact .inr (.inr hr)
        · obtain ⟨ks, hks⟩ := (parse_lenient_ok_iff hm text).2 (by omega)
          exact .inr (.inl (h ks hks))
    · rintro (hm | hn | hr) ks hks
      · exact nestsWithin_of_strict hm hks
      · exact hn
      · rcases hmode with hm | hm
        · exact nestsWithin_of_strict hm hks
        · have := (parse_lenient_ok_iff hm text).1 ⟨ks, hks⟩
          omega
  · constructor
    · intro h
      rcases hmode with hm | hm
      · exact .inl hm
      · refine .inr (Nat.le_of_not_lt fun hlt => ?_)
        -- one group more than the limit is open at the end of the text
        have hc := compact_staircase o.depthLimit
        have hreach : reach ('[' :: staircase o.depthLimit) ≤ o.depthLimit := by
          have := reachFrom_staircase [1] o.depthLimit
          simp only [reach, reachFrom, Nat.zero_add, Nat.max_le]
          omega
        obtain ⟨ks, hks⟩ := (parse_lenient_ok_iff hm _).2 (hc ▸ hreach)
        have hnests := nestsWithin_iff.1 (hc ▸ h _ ks hks)
        have := nestsFrom_staircase (nestsFrom_open.1 hnests).2
        omega
    · rintro (hm | hle) text ks hks
      · exact nestsWithin_of_strict hm hks
      · rcases hmode with hm | hm
        · exact nestsWithin_of_strict hm hks
        · have hr := (parse_lenient_ok_iff hm text).1 ⟨ks, hks⟩
          exact nestsWithin_iff.2 (nestsFrom_of_reachFrom_le_one hle (Nat.zero_le _) (by simp)
            (by simp) hr)

/-- With two groups as the limit a lenient reader accepts a text in which three are open. -/
theorem three_groups_within_limit_two :
    KeySpec.parse ⟨.lenient, 2⟩ "[[][[" = .ok ⟨[]⟩ ∧
      openGroups ((readPart (Text.compact "[[][[")).take 5) = 3 ∧
      ¬ NestsWithin (⟨.lenient, 2⟩ : Options).depthLimit (Text.compact "[[][[") := by
  refine ⟨?_, by decide, fun h => absurd (h 5) (by decide)⟩
  rw [parse_eq_run]
  rfl

end Excerpt.Spec
