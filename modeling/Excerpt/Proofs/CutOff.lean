import Excerpt.Proofs.OnePass
import Excerpt.Proofs.Readers

/-!
# The depth limit as a cut-off

A smaller limit changes nothing but that it refuses more: a reader gives what a reader with a larger
limit gives, or it meets a trajectory that is one key too long.

* `CutOff` — a result is another one, or a trajectory is too long;
* `Within` — a result has a property, and a trajectory that is too long is so by one key;
* `within_walk` — trajectories stay within the limit at every level of a walk;
* `parse_cutOff` — what the limit of a reader does.
-/

namespace Excerpt.Spec

/-! ### Two limits -/

/-- A result is another one, or a trajectory is too long. -/
def CutOff {α : Type} (lower higher : Except Fault α) : Prop :=
  (∃ depth limit i, lower = .error (.depthExceeded depth limit i)) ∨ lower = higher

namespace CutOff

variable {α β : Type}

theorem refl (x : Except Fault α) : CutOff x x := .inr rfl

theorem bind {x y : Except Fault α} {f g : α → Except Fault β} (hxy : CutOff x y)
    (hfg : ∀ a, CutOff (f a) (g a)) : CutOff (x >>= f) (y >>= g) := by
  rcases hxy with ⟨depth, limit, i, rfl⟩ | rfl
  · exact .inl ⟨depth, limit, i, rfl⟩
  · cases x with
    | error fault => exact .inr rfl
    | ok a => exact hfg a

end CutOff

section Limits

variable {o o' : Options}

theorem cutOff_checkDepth (h : o.depthLimit ≤ o'.depthLimit) (depth i : Nat) :
    CutOff (checkDepth o depth i) (checkDepth o' depth i) := by
  by_cases hd : depth ≤ o.depthLimit
  · have hlower : checkDepth o depth i = .ok () := checkDepth_eq_ok.2 hd
    have hhigher : checkDepth o' depth i = .ok () := checkDepth_eq_ok.2 (Nat.le_trans hd h)
    rw [hlower, hhigher]
    exact .refl _
  · exact .inl ⟨depth, o.depthLimit, i, if_pos (Nat.lt_of_not_le hd)⟩

/-- Readers in one mode, the first with a smaller limit. -/
def cutOffRelation (o o' : Options) (hm : o.mode = o'.mode) (hl : o.depthLimit ≤ o'.depthLimit) :
    ReaderRelation o o' where
  Rel := CutOff
  ok a := .refl _
  bind := .bind
  heed := fun {objection} _ => by
    unfold heed
    rw [hm]
    exact .refl _
  checkDepth := cutOff_checkDepth hl

/-- Readers in one mode with one limit. -/
def sameRelation (o o' : Options) (hm : o.mode = o'.mode) (hl : o.depthLimit = o'.depthLimit) :
    ReaderRelation o o' where
  Rel := Eq
  ok _ := rfl
  bind := by
    rintro α β x y f g rfl hfg
    exact bind_congr hfg
  heed := fun {objection} _ => by
    unfold heed
    rw [hm]
  checkDepth depth i := by
    unfold checkDepth
    rw [hl]

end Limits

/-! ### One limit -/

/-- A result has a property, and a trajectory that is too long has one key too many, completed at a
dot or an opening bracket of the characters. -/
def Within {α : Type} (limit : Nat) (text : List Char) (P : α → Prop) : Except Fault α → Prop
  | .ok a => P a
  | .error (.depthExceeded depth l i) =>
    l = limit ∧ depth = limit + 1 ∧ (text[i]? = some '.' ∨ text[i]? = some '[')
  | .error _ => True

namespace Within

variable {α β : Type} {limit : Nat} {text : List Char}

theorem bind {P : α → Prop} {Q : β → Prop} {x : Except Fault α} {f : α → Except Fault β}
    (hx : Within limit text P x) (hf : ∀ a, P a → Within limit text Q (f a)) :
    Within limit text Q (x >>= f) := by
  cases x with
  | ok a => exact hf a hx
  | error fault => cases fault <;> exact hx

end Within

section Walks

variable {o : Options} {text : List Char}

theorem within_heed {objection : Option Fault}
    (h : ∀ fault, objection = some fault → fault.isMalformed = true) :
    Within o.depthLimit text (fun _ => True) (heed o objection) := by
  cases objection with
  | none =>
    rw [heed_eq_ok.2 (.inr rfl)]
    trivial
  | some fault =>
    have hfault := h fault rfl
    cases hm : o.mode with
    | lenient =>
      rw [heed_lenient hm]
      trivial
    | strict =>
      have hheed : heed o (some fault) = .error fault := by simp [heed, hm]
      rw [hheed]
      cases fault with
      | depthExceeded depth limit i => cases hfault
      | unclosedGroup | unexpectedClosingBracket | emptyKey | unexpectedCharacter => trivial

theorem within_checkDepth {depth i : Nat} (h : depth ≤ o.depthLimit + 1)
    (hi : text[i]? = some '.' ∨ text[i]? = some '[') :
    Within o.depthLimit text (fun _ => depth ≤ o.depthLimit) (checkDepth o depth i) := by
  unfold checkDepth
  split
  · next hd => exact ⟨rfl, by omega, hi⟩
  · next hd => exact Nat.le_of_not_lt hd

/-- The trajectories of selections are within a limit. -/
def Short (limit : Nat) (ss : List Selection) : Prop := ∀ s ∈ ss, s.trajectory.length ≤ limit

theorem Short.append {limit : Nat} {ss ts : List Selection} (hs : Short limit ss)
    (ht : Short limit ts) : Short limit (ss ++ ts) :=
  fun s h => (List.mem_append.1 h).elim (hs s) (ht s)

theorem short_emit {limit : Nat} {p : Pending} (h : p.trajectory.length ≤ limit) :
    Short limit p.emit := by
  unfold Pending.emit
  split
  · simp [Short]
  · simpa [Short] using h

/-- **Trajectories stay within the limit.** Each key that is added is checked, so that the first
trajectory that is too long is so by one key. -/
theorem within_walk (level : Level) (cs : List Char) (i : Nat) (p : Pending)
    (hcs : cs = text.drop i) (hl : level.inherited.length ≤ o.depthLimit)
    (hp : p.trajectory.length ≤ o.depthLimit) :
    Within o.depthLimit text (fun w => Short o.depthLimit w.selections) (walk o level cs i p) := by
  induction level, cs, i, p using walk.induct with
  | case1 level i p =>
    rw [walk_nil]
    exact (within_heed fun _ => isMalformed_of_objectionAtEnd).bind fun _ _ => short_emit hp
  | case2 level c cs i p ihComma ihInner ihBehind ihDot ihChar =>
    have hc : text[i]? = some c := by rw [← List.head?_drop, ← hcs, List.head?_cons]
    have htail : cs = text.drop (i + 1) := by rw [← List.tail_drop, ← hcs, List.tail_cons]
    have hobj : Within o.depthLimit text (fun _ => True) (heed o (p.objection level i c)) :=
      within_heed fun _ => isMalformed_of_objection
    rcases delimiter_cases c with rfl | rfl | rfl | rfl | hdel
    -- a comma
    · rw [walk_comma]
      exact hobj.bind fun _ _ => (ihComma htail hl hl).bind fun tail ht => (short_emit hp).append ht
    -- a dot
    · have hlen : (p.descend i).trajectory.length ≤ o.depthLimit + 1 := by
        rw [Pending.length_descend]
        omega
      rw [walk_dot]
      exact hobj.bind fun _ _ => (within_checkDepth hlen (.inl hc)).bind fun _ hd =>
        (ihDot htail hl hd).bind fun tail ht => ht
    -- a group, and what stands behind it
    · have hlen : p.groupKeys.length ≤ o.depthLimit + 1 := by
        rw [Pending.length_groupKeys]
        omega
      rw [walk_open]
      refine hobj.bind fun _ _ => (within_checkDepth hlen (.inr hc)).bind fun _ hd =>
        (ihInner htail hd hd).bind fun nested hn => ?_
      have hbehind : cs.drop nested.consumed = text.drop (i + nested.consumed + 1) := by
        rw [htail, List.drop_drop]
        congr 1
        omega
      exact (ihBehind nested hbehind hl (Nat.zero_le _)).bind fun tail ht => hn.append ht
    -- a closing bracket
    · rw [walk_close]
      exact hobj.bind fun _ _ => short_emit hp
    -- a character of a key
    · rw [walk_char hdel]
      exact hobj.bind fun _ _ => (ihChar htail hl hp).bind fun tail ht => ht

theorem within_parse (o : Options) (text : String) :
    Within o.depthLimit (Text.compact text) (fun ks => Short o.depthLimit ks.selections)
      (KeySpec.parse o text) :=
  (within_walk .top (Text.compact text) 0 (.start .top) rfl (Nat.zero_le _)
    (Nat.zero_le _)).bind fun _ h => h

end Walks

/-! ### What the limit does -/

/-- **The depth limit is a cut-off.** A smaller limit gives the same result, or refuses a trajectory
as too long. Such a trajectory has one key more than the limit allows, and ends at a dot or an
opening bracket. No selection has a trajectory beyond the limit. And limits from the ceiling on do
the same. -/
theorem parse_cutOff (o : Options) (text : String) :
    (∀ m m', m ≤ m' →
      KeySpec.parse (o.withMaxDepth m) text = KeySpec.parse (o.withMaxDepth m') text ∨
        ∃ depth limit i, KeySpec.parse (o.withMaxDepth m) text =
          .error (.depthExceeded depth limit i)) ∧
    (∀ depth limit i, KeySpec.parse o text = .error (.depthExceeded depth limit i) →
      limit = min o.maxDepth 128 ∧ depth = limit + 1 ∧
        ((Text.compact text)[i]? = some '.' ∨ (Text.compact text)[i]? = some '[')) ∧
    (∀ ks, KeySpec.parse o text = .ok ks →
      ∀ s ∈ ks.selections, s.trajectory.length ≤ min o.maxDepth 128) ∧
    (∀ m m', 128 ≤ m → 128 ≤ m' →
      KeySpec.parse (o.withMaxDepth m) text = KeySpec.parse (o.withMaxDepth m') text) := by
  have hwithin := within_parse o text
  refine ⟨fun m m' hm => ?_, fun depth limit i h => ?_, fun ks h => ?_, fun m m' hm hm' => ?_⟩
  · have hlimit : (o.withMaxDepth m).depthLimit ≤ (o.withMaxDepth m').depthLimit :=
      Nat.le_min.2 ⟨Nat.le_trans (Nat.min_le_left _ _) hm, Nat.min_le_right _ _⟩
    have hcut : CutOff (KeySpec.parse (o.withMaxDepth m) text)
        (KeySpec.parse (o.withMaxDepth m') text) :=
      (cutOffRelation (o.withMaxDepth m) (o.withMaxDepth m') rfl hlimit).parse text
    exact hcut.symm
  · rw [h] at hwithin
    obtain ⟨rfl, hdepth, hi⟩ := hwithin
    exact ⟨rfl, hdepth, hi⟩
  · rw [h] at hwithin
    exact hwithin
  · have hlimit : ∀ n, 128 ≤ n → (o.withMaxDepth n).depthLimit = depthCeiling :=
      fun n hn => Nat.min_eq_right hn
    exact (sameRelation (o.withMaxDepth m) (o.withMaxDepth m') rfl
      ((hlimit m hm).trans (hlimit m' hm').symm)).parse text

/-- Two keys are the limit, and the inner bracket of `x[a.b[c.d]]` completes a third. Four keys are
within a limit of 200, which does what one of 1000 does. -/
theorem parse_cutOff_of_nested_groups :
    (2 ≤ 200 ∧
      (KeySpec.parse (Options.default.withMaxDepth 2) "x[a.b[c.d]]" =
          KeySpec.parse (Options.default.withMaxDepth 200) "x[a.b[c.d]]" ∨
        ∃ depth limit i, KeySpec.parse (Options.default.withMaxDepth 2) "x[a.b[c.d]]" =
          .error (.depthExceeded depth limit i))) ∧
    (KeySpec.parse ⟨.lenient, 2⟩ "x[a.b[c.d]]" = .error (.depthExceeded 3 2 5) ∧
      2 = min 2 128 ∧ 3 = 2 + 1 ∧
        ((Text.compact "x[a.b[c.d]]")[5]? = some '.' ∨
          (Text.compact "x[a.b[c.d]]")[5]? = some '[')) ∧
    (KeySpec.parse ⟨.lenient, 200⟩ "x[a.b[c.d]]" = .ok ⟨[⟨["x", "a", "b", "c"], "d"⟩]⟩ ∧
      ∀ s ∈ [(⟨["x", "a", "b", "c"], "d"⟩ : Selection)], s.trajectory.length ≤ min 200 128) ∧
    (128 ≤ 200 ∧ 128 ≤ 1000 ∧
      KeySpec.parse (Options.default.withMaxDepth 200) "x[a.b[c.d]]" =
        KeySpec.parse (Options.default.withMaxDepth 1000) "x[a.b[c.d]]") := by
  have hlow : KeySpec.parse ⟨.lenient, 2⟩ "x[a.b[c.d]]" = .error (.depthExceeded 3 2 5) := by
    rw [parse_eq_run]
    rfl
  have hhigh : KeySpec.parse ⟨.lenient, 200⟩ "x[a.b[c.d]]" =
      .ok ⟨[⟨["x", "a", "b", "c"], "d"⟩]⟩ := by
    rw [parse_eq_run]
    rfl
  have hlimits := parse_cutOff .default "x[a.b[c.d]]"
  have hfault := (parse_cutOff ⟨.lenient, 2⟩ "x[a.b[c.d]]").2.1 3 2 5 hlow
  have hshort := (parse_cutOff ⟨.lenient, 200⟩ "x[a.b[c.d]]").2.2.1 _ hhigh
  exact ⟨⟨by decide, hlimits.1 2 200 (by decide)⟩, ⟨hlow, hfault⟩, ⟨hhigh, hshort⟩,
    by decide, by decide, hlimits.2.2.2 200 1000 (by decide) (by decide)⟩

end Excerpt.Spec
