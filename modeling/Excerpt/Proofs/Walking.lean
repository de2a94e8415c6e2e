import Excerpt.Spec.Key
import Excerpt.Spec.Walk

/-!
# One step of a walk

* `delimiter_cases` — the five kinds of character that a walk tells apart;
* `walk_nil`, `walk_comma`, `walk_dot`, `walk_open`, `walk_close`, `walk_char` — what a walk does at
  the end of the text and at each kind of character;
* `walk_nil_ok`, … — the same for a walk that succeeds, as conditions and results;
* `parse_eq_ok_iff` — what reading a text has to do with walks.
-/

namespace Excerpt.Spec

/-! ### Checks -/

theorem bind_eq_ok {ε α β : Type} {x : Except ε α} {f : α → Except ε β} {b : β} :
    x >>= f = .ok b ↔ ∃ a, x = .ok a ∧ f a = .ok b := by
  cases x <;> simp [bind, Except.bind]

theorem check_eq_ok {ε β : Type} {x : Except ε Unit} {f : Unit → Except ε β} {b : β} :
    x >>= f = .ok b ↔ x = .ok () ∧ f () = .ok b := by
  cases x <;> simp [bind, Except.bind]

theorem return_eq_ok {ε α : Type} {a b : α} : (return a : Except ε α) = .ok b ↔ b = a := by
  simp [pure, Except.pure, eq_comm]

theorem bind_eq_error {ε α β : Type} {x : Except ε α} {f : α → Except ε β} {e : ε} :
    x >>= f = .error e ↔ x = .error e ∨ ∃ a, x = .ok a ∧ f a = .error e := by
  cases x <;> simp [bind, Except.bind]

theorem heed_eq_ok {o : Options} {objection : Option Fault} :
    heed o objection = .ok () ↔ o.mode = .lenient ∨ objection = none := by
  unfold heed
  cases hm : o.mode <;> cases objection <;> simp

theorem heed_lenient {o : Options} (ho : o.mode = .lenient) (objection : Option Fault) :
    heed o objection = .ok () :=
  heed_eq_ok.2 (.inl ho)

theorem heed_strict {o : Options} (ho : o.mode = .strict) {objection : Option Fault} :
    heed o objection = .ok () ↔ objection = none := by
  simp [heed_eq_ok, ho]

theorem checkDepth_eq_ok {o : Options} {depth i : Nat} :
    checkDepth o depth i = .ok () ↔ depth ≤ o.depthLimit := by
  unfold checkDepth
  split <;> simp <;> omega

namespace Pending

@[simp] theorem length_descend (p : Pending) (i : Nat) :
    (p.descend i).trajectory.length = p.trajectory.length + 1 := by simp [descend]

@[simp] theorem length_groupKeys (p : Pending) :
    p.groupKeys.length = p.trajectory.length + 1 := by simp [groupKeys]

end Pending

/-! ### Characters -/

theorem delimiter_cases (c : Char) :
    c = ',' ∨ c = '.' ∨ c = '[' ∨ c = ']' ∨ isDelimiter c = false := by
  cases h : isDelimiter c with
  | false => simp
  | true => simpa [isDelimiter, or_assoc] using h

theorem not_isDelimiter_iff {c : Char} :
    isDelimiter c = false ↔ c ≠ ',' ∧ c ≠ '.' ∧ c ≠ '[' ∧ c ≠ ']' := by
  simp [isDelimiter, and_assoc]

theorem objection_of_not_isDelimiter {p : Pending} {level : Level} {i : Nat} {c : Char}
    (hc : isDelimiter c = false) :
    p.objection level i c = if p.afterGroup then some (.unexpectedCharacter i c) else none := by
  have hne := not_isDelimiter_iff.1 hc
  unfold Pending.objection
  split <;> simp_all

/-! ### What a strict reader objects to -/

section Objections

variable {level : Level} {p : Pending} {i : Nat}

theorem objection_comma : p.objection level i ',' = none ↔ p.isBare = false := by
  simp [Pending.objection]

theorem objection_close : p.objection level i ']' = none ↔
    level.openedAt.isSome ∧ p.isBare = false := by
  cases h : level.openedAt <;> simp [Pending.objection, h]

theorem objection_dot : p.objection level i '.' = none ↔ p.afterGroup = false ∧ p.key ≠ "" := by
  cases h : p.afterGroup <;> simp [Pending.objection, h]

theorem objection_open : p.objection level i '[' = none ↔ p.afterGroup = false ∧ p.key ≠ "" := by
  cases h : p.afterGroup <;> simp [Pending.objection, h]

theorem objection_char {c : Char} (hc : isDelimiter c = false) :
    p.objection level i c = none ↔ p.afterGroup = false := by
  simp [objection_of_not_isDelimiter hc]

theorem objectionAtEnd_none : p.objectionAtEnd level = none ↔
    level.openedAt = none ∧ (p.last.isSome → p.isBare = false) := by
  cases h : level.openedAt <;> cases hl : p.last <;> simp [Pending.objectionAtEnd, h, hl]

end Objections

section Steps

variable {o : Options} {level : Level} {cs : List Char} {i : Nat} {p : Pending} {w : Walk}

theorem walk_nil : walk o level [] i p = do
    heed o (p.objectionAtEnd level)
    return ⟨p.emit, 1⟩ := by
  rw [walk]

theorem walk_comma : walk o level (',' :: cs) i p = do
    heed o (p.objection level i ',')
    let tail ← walk o level cs (i + 1) (.nextSibling level i)
    return ⟨p.emit ++ tail.selections, tail.consumed + 1⟩ := by
  rw [walk]

theorem walk_dot : walk o level ('.' :: cs) i p = do
    heed o (p.objection level i '.')
    checkDepth o (p.descend i).trajectory.length i
    let tail ← walk o level cs (i + 1) (p.descend i)
    return ⟨tail.selections, tail.consumed + 1⟩ := by
  rw [walk]

theorem walk_open : walk o level ('[' :: cs) i p = do
    heed o (p.objection level i '[')
    checkDepth o p.groupKeys.length i
    let nested ← walk o ⟨p.groupKeys, some i⟩ cs (i + 1) (.start ⟨p.groupKeys, some i⟩)
    let tail ← walk o level (cs.drop nested.consumed) (i + nested.consumed + 1)
      (.behindGroup (i + nested.consumed))
    return ⟨nested.selections ++ tail.selections, tail.consumed + nested.consumed + 1⟩ := by
  rw [walk]

theorem walk_close : walk o level (']' :: cs) i p = do
    heed o (p.objection level i ']')
    return ⟨p.emit, 1⟩ := by
  rw [walk]

theorem walk_char {c : Char} (hc : isDelimiter c = false) : walk o level (c :: cs) i p = do
    heed o (p.objection level i c)
    let tail ← walk o level cs (i + 1) (p.extend i c)
    return ⟨tail.selections, tail.consumed + 1⟩ := by
  have hne := not_isDelimiter_iff.1 hc
  rw [walk]
  all_goals simp [hne]

/-! ### Steps that succeed -/

theorem walk_nil_ok : walk o level [] i p = .ok w ↔
    heed o (p.objectionAtEnd level) = .ok () ∧ w = ⟨p.emit, 1⟩ := by
  rw [walk_nil, check_eq_ok, return_eq_ok]

theorem walk_comma_ok : walk o level (',' :: cs) i p = .ok w ↔
    heed o (p.objection level i ',') = .ok () ∧
      ∃ tail, walk o level cs (i + 1) (.nextSibling level i) = .ok tail ∧
        w = ⟨p.emit ++ tail.selections, tail.consumed + 1⟩ := by
  rw [walk_comma, check_eq_ok]
  simp only [bind_eq_ok, return_eq_ok]

theorem walk_dot_ok : walk o level ('.' :: cs) i p = .ok w ↔
    heed o (p.objection level i '.') = .ok () ∧ p.trajectory.length + 1 ≤ o.depthLimit ∧
      ∃ tail, walk o level cs (i + 1) (p.descend i) = .ok tail ∧
        w = ⟨tail.selections, tail.consumed + 1⟩ := by
  rw [walk_dot, check_eq_ok, check_eq_ok, checkDepth_eq_ok, Pending.length_descend]
  simp only [bind_eq_ok, return_eq_ok]

theorem walk_open_ok : walk o level ('[' :: cs) i p = .ok w ↔
    heed o (p.objection level i '[') = .ok () ∧ p.trajectory.length + 1 ≤ o.depthLimit ∧
      ∃ nested, walk o ⟨p.groupKeys, some i⟩ cs (i + 1) (.start ⟨p.groupKeys, some i⟩) =
          .ok nested ∧
        ∃ tail, walk o level (cs.drop nested.consumed) (i + nested.consumed + 1)
            (.behindGroup (i + nested.consumed)) = .ok tail ∧
          w = ⟨nested.selections ++ tail.selections, tail.consumed + nested.consumed + 1⟩ := by
  rw [walk_open, check_eq_ok, check_eq_ok, checkDepth_eq_ok, Pending.length_groupKeys]
  simp only [bind_eq_ok, return_eq_ok]

theorem walk_close_ok : walk o level (']' :: cs) i p = .ok w ↔
    heed o (p.objection level i ']') = .ok () ∧ w = ⟨p.emit, 1⟩ := by
  rw [walk_close, check_eq_ok, return_eq_ok]

theorem walk_char_ok {c : Char} (hc : isDelimiter c = false) :
    walk o level (c :: cs) i p = .ok w ↔
      heed o (p.objection level i c) = .ok () ∧
        ∃ tail, walk o level cs (i + 1) (p.extend i c) = .ok tail ∧
          w = ⟨tail.selections, tail.consumed + 1⟩ := by
  rw [walk_char hc, check_eq_ok]
  simp only [bind_eq_ok, return_eq_ok]

end Steps

theorem parse_eq_ok_iff {o : Options} {text : String} {ks : KeySpec} :
    KeySpec.parse o text = .ok ks ↔
      ∃ w, walk o .top (Text.compact text) 0 (.start .top) = .ok w ∧ ks = ⟨w.selections⟩ := by
  rw [KeySpec.parse, bind_eq_ok]
  simp only [return_eq_ok]

end Excerpt.Spec
