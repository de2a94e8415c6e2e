import Excerpt.Proofs.Walking
import Excerpt.Spec.OnePass

/-!
# A walk is one pass with a stack

The nested calls of a walk are the open groups of the machine that sees every character once.

* `Machine.ofPending` — the machine at a state of the innermost level;
* `resume` — how the machine goes on where a walk of the innermost level has ended;
* `runFrom_eq_walk` — the machine gives what the walk gives and goes on from there;
* `run_eq_walk` — from the start of a text both give the same.
-/

namespace Excerpt.Spec

/-- The innermost level of a stack of open groups. -/
def innermost : List OpenGroup → Level
  | [] => .top
  | g :: _ => ⟨g.keys, some g.place⟩

namespace Machine

/-- The machine with some open groups, at a state of the innermost level. -/
def ofPending (stack : List OpenGroup) (p : Pending) (found : List Selection) : Machine :=
  ⟨stack, p.trajectory, p.key, p.afterGroup, found⟩

variable {o : Options} {stack : List OpenGroup} {p : Pending} {found : List Selection} {i : Nat}
  {last : Option Char} {cs : List Char}

@[simp] theorem base_ofPending :
    (ofPending stack p found).base = (innermost stack).inherited := by
  cases stack <;> rfl

@[simp] theorem emitted_ofPending : (ofPending stack p found).emitted = found ++ p.emit := by
  by_cases hk : p.key = "" <;> simp [emitted, ofPending, Pending.emit, hk]

theorem require_eq_heed (b : Bool) (fault : Fault) :
    require o b fault = heed o (if b then none else some fault) := by
  cases b <;> cases hm : o.mode <;> simp [require, heed, Options.isStrict, hm]

theorem requireDepth_eq_checkDepth (depth : Nat) :
    requireDepth o depth i = checkDepth o depth i := by
  unfold requireDepth checkDepth
  by_cases h : depth ≤ o.depthLimit
  · rw [if_pos h, if_neg (Nat.not_lt.2 h)]
  · rw [if_neg h, if_pos (Nat.lt_of_not_le h)]

theorem requireKey_eq_heed (c : Char) : (ofPending stack p found).requireKey o i c =
    heed o (if p.isBare then some (.emptyKey i c) else none) := by
  rw [requireKey, require_eq_heed]
  by_cases hk : p.key = "" <;> cases ha : p.afterGroup <;> simp [ofPending, Pending.isBare, hk, ha]

theorem requireOpen_eq_heed (c : Char) : (ofPending stack p found).requireOpen o i c =
    heed o (if p.afterGroup then some (.unexpectedCharacter i c) else none) := by
  rw [requireOpen, require_eq_heed]
  cases ha : p.afterGroup <;> simp [ofPending, ha]

theorem requireOpen_requireKey (stack : List OpenGroup) (found : List Selection) (c : Char) :
    (do (ofPending stack p found).requireOpen o i c
        (ofPending stack p found).requireKey o i c) =
      heed o (if p.afterGroup then some (.unexpectedCharacter i c)
        else if p.key.isEmpty then some (.emptyKey i c) else none) := by
  rw [requireOpen_eq_heed, requireKey_eq_heed]
  cases ha : p.afterGroup <;> cases hm : o.mode <;> simp [heed, hm, Pending.isBare, ha] <;> rfl

/-! ### One character -/

theorem runFrom_comma : (ofPending stack p found).runFrom o i last (',' :: cs) =
    heed o (p.objection (innermost stack) i ',') >>= fun _ =>
      (ofPending stack (.nextSibling (innermost stack) i) (found ++ p.emit)).runFrom o (i + 1)
        (some ',') cs := by
  rw [runFrom]
  simp only [step, requireKey_eq_heed, Pending.objection, base_ofPending, emitted_ofPending]
  cases heed o (if p.isBare then some (.emptyKey i ',') else none) <;> rfl

theorem runFrom_dot : (ofPending stack p found).runFrom o i last ('.' :: cs) =
    heed o (p.objection (innermost stack) i '.') >>= fun _ =>
      checkDepth o (p.descend i).trajectory.length i >>= fun _ =>
        (ofPending stack (p.descend i) found).runFrom o (i + 1) (some '.') cs := by
  rw [runFrom]
  simp only [step, Pending.objection, ← requireOpen_requireKey stack found,
    requireDepth_eq_checkDepth, Pending.length_descend]
  cases (ofPending stack p found).requireOpen o i '.' with
  | error fault => rfl
  | ok _ =>
    cases (ofPending stack p found).requireKey o i '.' with
    | error fault => rfl
    | ok _ =>
      cases h : checkDepth o (p.trajectory.length + 1) i <;>
        simp [bind, Except.bind, ofPending, h, pure, Except.pure, Pending.descend]

theorem runFrom_open : (ofPending stack p found).runFrom o i last ('[' :: cs) =
    heed o (p.objection (innermost stack) i '[') >>= fun _ =>
      checkDepth o p.groupKeys.length i >>= fun _ =>
        (ofPending (⟨p.groupKeys, i⟩ :: stack) (.start ⟨p.groupKeys, some i⟩) found).runFrom o
          (i + 1) (some '[') cs := by
  rw [runFrom]
  simp only [step, Pending.objection, ← requireOpen_requireKey stack found,
    requireDepth_eq_checkDepth, Pending.length_groupKeys]
  cases (ofPending stack p found).requireOpen o i '[' with
  | error fault => rfl
  | ok _ =>
    cases (ofPending stack p found).requireKey o i '[' with
    | error fault => rfl
    | ok _ =>
      cases h : checkDepth o (p.trajectory.length + 1) i <;>
        simp [bind, Except.bind, ofPending, h, pure, Except.pure, Pending.groupKeys, Pending.start]

theorem runFrom_close_nil : (ofPending [] p found).runFrom o i last (']' :: cs) =
    heed o (p.objection .top i ']') >>= fun _ => .ok (found ++ p.emit) := by
  rw [runFrom]
  simp only [step, require_eq_heed, Pending.objection, emitted_ofPending]
  simp only [ofPending, Level.top, Option.isNone_none, if_true, Bool.false_eq_true, if_false]
  cases heed o (some (.unexpectedClosingBracket i)) <;> rfl

theorem runFrom_close_cons {g : OpenGroup} :
    (ofPending (g :: stack) p found).runFrom o i last (']' :: cs) =
      heed o (p.objection (innermost (g :: stack)) i ']') >>= fun _ =>
        (ofPending stack (.behindGroup i) (found ++ p.emit)).runFrom o (i + 1) (some ']') cs := by
  rw [runFrom]
  simp only [step, requireKey_eq_heed, Pending.objection, emitted_ofPending]
  simp only [ofPending, innermost, Option.isNone_some, Bool.false_eq_true, if_false]
  cases heed o (if p.isBare then some (.emptyKey i ']') else none) <;> rfl

theorem runFrom_char {c : Char} (hc : isDelimiter c = false) :
    (ofPending stack p found).runFrom o i last (c :: cs) =
      heed o (p.objection (innermost stack) i c) >>= fun _ =>
        (ofPending stack (p.extend i c) found).runFrom o (i + 1) (some c) cs := by
  have hne := not_isDelimiter_iff.1 hc
  have hstep : (ofPending stack p found).step o i c =
      (ofPending stack p found).requireOpen o i c >>= fun _ =>
        .ok (.inl (ofPending stack (p.extend i c) found)) := by
    unfold step
    split <;> simp_all
    rfl
  rw [runFrom, hstep, objection_of_not_isDelimiter hc, requireOpen_eq_heed]
  cases heed o (if p.afterGroup then some (.unexpectedCharacter i c) else none) <;> rfl

/-- What a machine remembers of the last character is what the walk remembers of it. In a group the
machine does not look at it. -/
def Agrees (stack : List OpenGroup) (p : Pending) (i : Nat) (last : Option Char) : Prop :=
  stack = [] → last = p.last.map Prod.snd ∧ ∀ q c, p.last = some (q, c) → q + 1 = i

theorem agrees_of_last {c : Char} (h : p.last = some (i, c)) :
    Agrees stack p (i + 1) (some c) := by
  intro _
  simp [h]

theorem agrees_start : Agrees [] (.start .top) 0 none := by simp [Agrees, Pending.start]

theorem runFrom_nil (hl : Agrees stack p i last) :
    (ofPending stack p found).runFrom o i last [] =
      heed o (p.objectionAtEnd (innermost stack)) >>= fun _ => .ok (found ++ p.emit) := by
  rw [runFrom]
  cases stack with
  | cons g stack =>
    simp only [finish, require_eq_heed, emitted_ofPending, Pending.objectionAtEnd, innermost]
    simp only [ofPending, Bool.false_eq_true, if_false]
    cases heed o (some (.unclosedGroup g.place)) <;> rfl
  | nil =>
    obtain ⟨rfl, hq⟩ := hl rfl
    cases hp : p.last with
    | none =>
      simp only [finish, emitted_ofPending, Pending.objectionAtEnd, innermost, Level.top, hp]
      simp [ofPending, heed_eq_ok.2, bind, Except.bind]
    | some last =>
      obtain ⟨q, c⟩ := last
      obtain rfl := hq q c hp
      simp only [finish, emitted_ofPending, Pending.objectionAtEnd, innermost, Level.top, hp,
        requireKey_eq_heed]
      simp only [ofPending, Nat.add_sub_cancel, Option.map_some]
      cases heed o (if p.isBare then some (.emptyKey q c) else none) <;> rfl

/-! ### A whole level -/

/-- How the machine goes on at place `i` where a walk of the innermost level has ended: outside
every group the pass is over, and in a group it goes on behind the group. -/
def resume (o : Options) (stack : List OpenGroup) (found : List Selection) (i : Nat)
    (cs : List Char) : Except Fault (List Selection) :=
  match stack with
  | [] => .ok found
  | _ :: stack => (ofPending stack (.behindGroup (i - 1)) found).runFrom o i (some ']') cs

theorem resume_end (h : heed o (p.objectionAtEnd (innermost stack)) = .ok ()) :
    resume o stack found (i + 1) [] = .ok found := by
  cases stack with
  | nil => rfl
  | cons g stack =>
    have hm : o.mode = .lenient := by simpa [heed_eq_ok, objectionAtEnd_none, innermost] using h
    have hl : Agrees stack (.behindGroup i) (i + 1) (some ']') := agrees_of_last rfl
    calc resume o (g :: stack) found (i + 1) []
        = heed o ((Pending.behindGroup i).objectionAtEnd (innermost stack)) >>= fun _ =>
            .ok (found ++ (Pending.behindGroup i).emit) := runFrom_nil hl
      _ = .ok found := by
        rw [heed_lenient hm]
        simp [Pending.behindGroup, Pending.emit, bind, Except.bind]

/-- **A walk is one pass with a stack.** At every state of the innermost level the machine gives
what the walk of that level gives, and goes on where the walk ends. -/
theorem runFrom_eq_walk (level : Level) (cs : List Char) (i : Nat) (p : Pending)
    (stack : List OpenGroup) (found : List Selection) (last : Option Char)
    (hs : level = innermost stack) (hl : Agrees stack p i last) :
    (ofPending stack p found).runFrom o i last cs =
      walk o level cs i p >>= fun w =>
        resume o stack (found ++ w.selections) (i + w.consumed) (cs.drop w.consumed) := by
  induction level, cs, i, p using walk.induct generalizing stack found last with
  | case1 level i p =>
    subst hs
    rw [runFrom_nil hl, walk_nil]
    cases h : heed o (p.objectionAtEnd (innermost stack)) with
    | error fault => rfl
    | ok _ => exact (resume_end h).symm
  | case2 level c cs i p ihComma ihInner ihBehind ihDot ihChar =>
    subst hs
    rcases delimiter_cases c with rfl | rfl | rfl | rfl | hdel
    -- a comma
    · have ih := ihComma stack (found ++ p.emit) (some ',') rfl (agrees_of_last rfl)
      rw [runFrom_comma, walk_comma]
      simp only [bind_assoc, pure_bind, List.drop_succ_cons]
      refine bind_congr fun _ => ih.trans ?_
      simp only [List.append_assoc, Nat.add_comm 1, Nat.add_assoc]
    -- a dot
    · have ih := ihDot stack found (some '.') rfl (agrees_of_last rfl)
      rw [runFrom_dot, walk_dot]
      simp only [bind_assoc, pure_bind, List.drop_succ_cons]
      refine bind_congr fun _ => bind_congr fun _ => ih.trans ?_
      simp only [Nat.add_comm 1, Nat.add_assoc]
    · -- the machine goes through the group, and then through the rest of the level
      have ih := ihInner (⟨p.groupKeys, i⟩ :: stack) found (some '[') rfl (by simp [Agrees])
      rw [runFrom_open, walk_open]
      simp only [bind_assoc, pure_bind, List.drop_succ_cons]
      refine bind_congr fun _ => bind_congr fun _ => ih.trans (bind_congr fun nested => ?_)
      have hplace : i + 1 + nested.consumed = i + nested.consumed + 1 := by omega
      have ih' := ihBehind nested stack (found ++ nested.selections) (some ']') rfl
        (agrees_of_last rfl)
      rw [hplace]
      refine ih'.trans (bind_congr fun tail => ?_)
      have hend : i + nested.consumed + 1 + tail.consumed =
          i + (tail.consumed + nested.consumed + 1) := by omega
      rw [List.drop_drop, List.append_assoc, hend, Nat.add_comm nested.consumed]
    -- a closing bracket
    · cases stack with
      | nil =>
        rw [runFrom_close_nil, walk_close]
        simp only [bind_assoc, pure_bind, innermost]
        rfl
      | cons g stack =>
        rw [runFrom_close_cons, walk_close]
        simp only [bind_assoc, pure_bind]
        rfl
    -- a character of a key
    · have ih := ihChar stack found (some c) rfl (agrees_of_last rfl)
      rw [runFrom_char hdel, walk_char hdel]
      simp only [bind_assoc, pure_bind, List.drop_succ_cons]
      refine bind_congr fun _ => ih.trans ?_
      simp only [Nat.add_comm 1, Nat.add_assoc]

/-- **The recursive reader is the machine.** On every list of characters both give the same
selections in the same order, or the same fault. -/
theorem run_eq_walk (o : Options) (cs : List Char) :
    run o cs = (walk o .top cs 0 (.start .top)).map Walk.selections := by
  calc run o cs
      = walk o .top cs 0 (.start .top) >>= fun w =>
          resume o [] ([] ++ w.selections) (0 + w.consumed) (cs.drop w.consumed) :=
        runFrom_eq_walk .top cs 0 (.start .top) [] [] none rfl agrees_start
    _ = (walk o .top cs 0 (.start .top)).map Walk.selections := by
        cases walk o .top cs 0 (.start .top) <;> rfl

end Machine

/-- Reading a specification is a run of the machine on what is not blank. -/
theorem parse_eq_run (o : Options) (text : String) :
    KeySpec.parse o text = (Machine.run o (Text.compact text)).map KeySpec.mk := by
  have hrun : Machine.run o (Text.compact text) =
      walk o .top (Text.compact text) 0 (.start .top) >>= fun w => .ok w.selections :=
    Machine.runFrom_eq_walk .top (Text.compact text) 0 (.start .top) [] [] none rfl
      Machine.agrees_start
  rw [hrun, KeySpec.parse]
  cases walk o .top (Text.compact text) 0 (.start .top) <;> rfl

theorem parse_eq_ok_iff_run {o : Options} {text : String} {ks : KeySpec} :
    KeySpec.parse o text = .ok ks ↔ Machine.run o (Text.compact text) = .ok ks.selections := by
  rw [parse_eq_run]
  cases ks
  cases Machine.run o (Text.compact text) <;> simp [Except.map]

theorem parse_eq_error_iff {o : Options} {text : String} {fault : Fault} :
    KeySpec.parse o text = .error fault ↔ Machine.run o (Text.compact text) = .error fault := by
  rw [parse_eq_run]
  cases Machine.run o (Text.compact text) <;> simp [Except.map]

end Excerpt.Spec
