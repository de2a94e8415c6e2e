import Excerpt.Proofs.Readers

/-!
# Strict and lenient reading

A strict reader makes the same steps as a lenient one. It only adds objections, all of them to the
structure of the specification, and an objection ends the reading.

* `Stricter` — what a strict and a lenient result have to do with each other;
* `Stricter.bind` — it carries over from the parts of a computation to the whole;
* `stricter_walk` — the walks of a level are related so;
* `parse_strict_or_lenient` — the readings of a text are.
-/

namespace Excerpt.Spec

/-! ### Strict and lenient results -/

/-- A strict result finds fault with the structure, or is the lenient result. A lenient result finds
fault with the depth alone. -/
structure Stricter {α : Type} (limit : Nat) (strict lenient : Except Fault α) : Prop where
  agrees : (∃ fault, strict = .error fault ∧ fault.isMalformed = true) ∨ strict = lenient
  fault_eq : ∀ fault, lenient = .error fault → ∃ depth i, fault = .depthExceeded depth limit i

namespace Stricter

variable {α β : Type} {limit : Nat}

theorem ok (a : α) : Stricter limit (.ok a) (.ok a) := ⟨.inr rfl, by simp⟩

theorem bind {x y : Except Fault α} {f g : α → Except Fault β} (hxy : Stricter limit x y)
    (hfg : ∀ a, Stricter limit (f a) (g a)) : Stricter limit (x >>= f) (y >>= g) := by
  constructor
  · rcases hxy.agrees with ⟨fault, rfl, hfault⟩ | rfl
    · exact .inl ⟨fault, rfl, hfault⟩
    · cases x with
      | error fault => exact .inr rfl
      | ok a => exact (hfg a).agrees
  · intro fault h
    rcases bind_eq_error.1 h with hy | ⟨a, -, hg⟩
    · exact hxy.fault_eq fault hy
    · exact (hfg a).fault_eq fault hg

end Stricter

section Walks

variable (o : Options)

theorem stricter_heed {objection : Option Fault}
    (h : ∀ fault, objection = some fault → fault.isMalformed = true) :
    Stricter o.depthLimit (heed (o.withMode .strict) objection)
      (heed (o.withMode .lenient) objection) := by
  cases objection with
  | none => exact .ok ()
  | some fault => exact ⟨.inl ⟨fault, rfl, h fault rfl⟩, by simp [heed, Options.withMode]⟩

theorem stricter_checkDepth (depth i : Nat) :
    Stricter o.depthLimit (checkDepth (o.withMode .strict) depth i)
      (checkDepth (o.withMode .lenient) depth i) := by
  refine ⟨.inr rfl, fun fault h => ?_⟩
  unfold checkDepth at h
  split at h
  · cases h
    exact ⟨depth, i, rfl⟩
  · simp at h

/-- What a strict and a lenient reader with one limit have to do with each other. -/
def strictRelation : ReaderRelation (o.withMode .strict) (o.withMode .lenient) where
  Rel := Stricter o.depthLimit
  ok := .ok
  bind := .bind
  heed := stricter_heed o
  checkDepth := stricter_checkDepth o

/-- **A strict walk is a lenient one with objections.** At every state of every level the strict
walk objects, or it goes as far as the lenient one, with the same result. -/
theorem stricter_walk (level : Level) (cs : List Char) (i : Nat) (p : Pending) :
    Stricter o.depthLimit (walk (o.withMode .strict) level cs i p)
      (walk (o.withMode .lenient) level cs i p) :=
  (strictRelation o).walk level cs i p

end Walks

/-- **Strict reading only adds refusals.** A strict reader refuses a text for its structure, or
gives what a lenient one with the same limit gives; and a lenient reader refuses a text only for a
path that is too long. -/
theorem parse_strict_or_lenient (o : Options) (text : String) :
    ((∃ fault, KeySpec.parse (o.withMode .strict) text = .error fault ∧
        fault.isMalformed = true) ∨
      KeySpec.parse (o.withMode .strict) text = KeySpec.parse (o.withMode .lenient) text) ∧
    ((∃ ks, KeySpec.parse (o.withMode .lenient) text = .ok ks) ∨
      ∃ depth i, KeySpec.parse (o.withMode .lenient) text =
        .error (.depthExceeded depth o.depthLimit i)) := by
  have hparse : Stricter o.depthLimit (KeySpec.parse (o.withMode .strict) text)
      (KeySpec.parse (o.withMode .lenient) text) :=
    (stricter_walk o .top (Text.compact text) 0 (.start .top)).bind fun _ => .ok _
  refine ⟨hparse.agrees, ?_⟩
  cases h : KeySpec.parse (o.withMode .lenient) text with
  | ok ks => exact .inl ⟨ks, rfl⟩
  | error fault =>
    obtain ⟨depth, i, rfl⟩ := hparse.fault_eq fault h
    exact .inr ⟨depth, i, rfl⟩

end Excerpt.Spec
