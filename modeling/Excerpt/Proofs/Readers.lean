import Excerpt.Proofs.Walking

/-!
# Two readers side by side

Options reach a walk through its checks alone: the objections that it heeds and the depths that it
allows. What is known of these checks for two readers carries over to their walks.

* `isMalformed_of_objection` — objections are faults of structure;
* `ReaderRelation` — a relation of results that carries over from the parts of a computation to the
  whole, and that holds of the checks of two readers;
* `ReaderRelation.walk`, `ReaderRelation.parse` — it holds of their walks, and of what they read.
-/

namespace Excerpt.Spec

/-! ### Objections -/

section Objections

variable {level : Level} {p : Pending} {i : Nat} {fault : Fault}

theorem isMalformed_of_objection {c : Char} (h : p.objection level i c = some fault) :
    fault.isMalformed = true := by
  unfold Pending.objection at h
  grind [Fault.isMalformed]

theorem isMalformed_of_objectionAtEnd (h : p.objectionAtEnd level = some fault) :
    fault.isMalformed = true := by
  unfold Pending.objectionAtEnd at h
  grind [Fault.isMalformed]

end Objections

/-! ### Two readers -/

/-- A relation between the results of a reader with the options `o` and of one with the options
`o'`. -/
structure ReaderRelation (o o' : Options) where
  /-- How two results are related. -/
  Rel : {α : Type} → Except Fault α → Except Fault α → Prop
  ok : ∀ {α : Type} (a : α), Rel (.ok a) (.ok a)
  bind : ∀ {α β : Type} {x y : Except Fault α} {f g : α → Except Fault β},
    Rel x y → (∀ a, Rel (f a) (g a)) → Rel (x >>= f) (y >>= g)
  heed : ∀ {objection : Option Fault},
    (∀ fault, objection = some fault → fault.isMalformed = true) →
      Rel (heed o objection) (heed o' objection)
  checkDepth : ∀ depth i, Rel (checkDepth o depth i) (checkDepth o' depth i)

namespace ReaderRelation

variable {o o' : Options} (R : ReaderRelation o o')

/-- **What holds of the checks holds of the walks.** The walks part only where the checks do. -/
theorem walk (level : Level) (cs : List Char) (i : Nat) (p : Pending) :
    R.Rel (walk o level cs i p) (walk o' level cs i p) := by
  induction level, cs, i, p using walk.induct with
  | case1 level i p =>
    rw [walk_nil, walk_nil]
    exact R.bind (R.heed fun _ => isMalformed_of_objectionAtEnd) fun _ => R.ok _
  | case2 level c cs i p ihComma ihInner ihBehind ihDot ihChar =>
    have hobj : R.Rel (Spec.heed o (p.objection level i c))
        (Spec.heed o' (p.objection level i c)) := R.heed fun _ => isMalformed_of_objection
    rcases delimiter_cases c with rfl | rfl | rfl | rfl | hdel
    -- a comma
    · rw [walk_comma, walk_comma]
      exact R.bind hobj fun _ => R.bind ihComma fun _ => R.ok _
    -- a dot
    · rw [walk_dot, walk_dot]
      exact R.bind hobj fun _ => R.bind (R.checkDepth _ i) fun _ => R.bind ihDot fun _ => R.ok _
    -- a group, and what stands behind it if both readers have read the same of it
    · rw [walk_open, walk_open]
      exact R.bind hobj fun _ => R.bind (R.checkDepth _ i) fun _ =>
        R.bind ihInner fun nested => R.bind (ihBehind nested) fun _ => R.ok _
    -- a closing bracket
    · rw [walk_close, walk_close]
      exact R.bind hobj fun _ => R.ok _
    -- a character of a key
    · rw [walk_char hdel, walk_char hdel]
      exact R.bind hobj fun _ => R.bind ihChar fun _ => R.ok _

theorem parse (text : String) : R.Rel (KeySpec.parse o text) (KeySpec.parse o' text) :=
  R.bind (R.walk .top (Text.compact text) 0 (.start .top)) fun _ => R.ok _

end ReaderRelation

end Excerpt.Spec
