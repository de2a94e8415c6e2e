import Excerpt.Proofs.OnePass
import Excerpt.Spec.Brackets

/-!
# What the machine passes over

The machine passes over a character or finds fault with it, unless it is a lenient reader at a
bracket that closes nothing, where it stops. All along the open groups are the brackets that nothing
has closed.

* `Fault.Blames` — a fault lies with one character;
* `EnclosedBy` — the open groups are the brackets of the characters that nothing has closed;
* `BlamesOr` — a computation blames a character or gives a result;
* `Reaches` — the machine passes over characters from one state to another;
* `step_blamesOr`, `passes_or_blames` — one character, and many.
-/

namespace Excerpt.Spec

/-- The fault lies with the character `c` at place `q`. -/
def Fault.Blames (q : Nat) (c : Char) : Fault → Prop
  | .emptyKey p found | .unexpectedCharacter p found => p = q ∧ found = c
  | .unexpectedClosingBracket p => p = q ∧ c = ']'
  | .depthExceeded _ _ p => p = q ∧ (c = '.' ∨ c = '[')
  | .unclosedGroup _ => False

/-! ### Brackets -/

section Brackets

variable {as bs : List Char}

theorem balanced_nil : Balanced [] := by simp [Balanced]

theorem balanced_singleton {c : Char} (h : c ≠ '[') (h' : c ≠ ']') : Balanced [c] := by
  refine ⟨fun n => ?_, by simp [h, h']⟩
  cases n <;> simp [h']

theorem Balanced.append (ha : Balanced as) (hb : Balanced bs) : Balanced (as ++ bs) := by
  constructor
  · intro n
    have h := ha.1 n
    have h' := hb.1 (n - as.length)
    rw [List.take_append, List.count_append, List.count_append]
    omega
  · have h := ha.2
    have h' := hb.2
    rw [List.count_append, List.count_append]
    omega

theorem Balanced.bracketed (ha : Balanced as) : Balanced ('[' :: (as ++ [']'])) := by
  constructor
  · intro n
    cases n with
    | zero => simp
    | succ n =>
      have h := ha.1 n
      have hle : ([']'].take (n - as.length)).count ']' ≤ 1 :=
        Nat.le_trans List.count_le_length (List.length_take_le' _ _)
      have hopen : ([']'].take (n - as.length)).count '[' = 0 :=
        List.count_eq_zero.2 fun hmem => absurd (List.mem_of_mem_take hmem) (by decide)
      rw [List.take_succ_cons, List.take_append, List.count_cons, List.count_cons,
        List.count_append, List.count_append, hopen]
      simp
      omega
  · have h := ha.2
    simp [h]

/-- The open groups, the innermost first, are the brackets of the characters that nothing closes. -/
def EnclosedBy : List Char → List OpenGroup → Prop
  | read, [] => Balanced read
  | read, g :: stack => ∃ outer inner, read = outer ++ '[' :: inner ∧ g.place = outer.length ∧
      Balanced inner ∧ EnclosedBy outer stack

theorem EnclosedBy.append {stack : List OpenGroup} (h : EnclosedBy as stack) (hb : Balanced bs) :
    EnclosedBy (as ++ bs) stack := by
  cases stack with
  | nil => exact Balanced.append h hb
  | cons g stack =>
    obtain ⟨outer, inner, rfl, hg, hi, ho⟩ := h
    exact ⟨outer, inner ++ bs, by simp, hg, hi.append hb, ho⟩

theorem EnclosedBy.opened {stack : List OpenGroup} (h : EnclosedBy as stack) (keys : List String) :
    EnclosedBy (as ++ ['[']) (⟨keys, as.length⟩ :: stack) :=
  ⟨as, [], rfl, rfl, balanced_nil, h⟩

theorem EnclosedBy.closed {g : OpenGroup} {stack : List OpenGroup}
    (h : EnclosedBy as (g :: stack)) : EnclosedBy (as ++ [']']) stack := by
  obtain ⟨outer, inner, rfl, -, hi, ho⟩ := h
  simpa using ho.append hi.bracketed

/-- Behind the character `c` at place `i` the groups `stack'` are open, if `stack` are before
it. -/
def Follows (i : Nat) (c : Char) (stack stack' : List OpenGroup) : Prop :=
  (c = '[' ∧ ∃ keys, stack' = ⟨keys, i⟩ :: stack) ∨ (c = ']' ∧ ∃ g, stack = g :: stack') ∨
    (c ≠ '[' ∧ c ≠ ']' ∧ stack' = stack)

theorem EnclosedBy.follow {stack stack' : List OpenGroup} {c : Char}
    (h : EnclosedBy as stack) (hs : Follows as.length c stack stack') :
    EnclosedBy (as ++ [c]) stack' := by
  rcases hs with ⟨rfl, keys, rfl⟩ | ⟨rfl, g, rfl⟩ | ⟨hc, hc', rfl⟩
  · exact h.opened keys
  · exact h.closed
  · exact h.append (balanced_singleton hc hc')

theorem EnclosedBy.count_eq {stack : List OpenGroup} (h : EnclosedBy as stack) :
    as.count '[' = as.count ']' + stack.length := by
  induction stack generalizing as with
  | nil =>
    have hcount := h.2
    simpa using hcount.symm
  | cons g stack ih =>
    obtain ⟨outer, inner, rfl, -, hi, ho⟩ := h
    have hinner := hi.2
    have houter := ih ho
    simp [List.count_append]
    omega

theorem EnclosedBy.openGroups_eq {stack : List OpenGroup} (h : EnclosedBy as stack) :
    openGroups as = stack.length := by
  have hcount := h.count_eq
  unfold openGroups
  omega

end Brackets

namespace Machine

/-! ### One character -/

/-- A computation blames the character, or gives a result with a property. -/
def BlamesOr {α : Type} (q : Nat) (c : Char) (P : α → Prop) (x : Except Fault α) : Prop :=
  (∃ fault, x = .error fault ∧ fault.Blames q c) ∨ ∃ a, x = .ok a ∧ P a

namespace BlamesOr

variable {α β : Type} {q : Nat} {c : Char}

theorem ok {P : α → Prop} {a : α} (h : P a) : BlamesOr q c P (.ok a) := .inr ⟨a, rfl, h⟩

theorem error {P : α → Prop} {fault : Fault} (h : fault.Blames q c) :
    BlamesOr q c P (.error fault) :=
  .inl ⟨fault, rfl, h⟩

theorem bind {P : α → Prop} {Q : β → Prop} {x : Except Fault α} {f : α → Except Fault β}
    (hx : BlamesOr q c P x) (hf : ∀ a, P a → BlamesOr q c Q (f a)) : BlamesOr q c Q (x >>= f) := by
  rcases hx with ⟨fault, rfl, h⟩ | ⟨a, rfl, h⟩
  · exact .inl ⟨fault, rfl, h⟩
  · exact hf a h

end BlamesOr

section Steps

variable {o : Options} (m : Machine) (i : Nat) (c : Char)

theorem blamesOr_requireKey : BlamesOr i c (fun _ => True) (m.requireKey o i c) := by
  unfold requireKey require
  split
  · exact .error ⟨rfl, rfl⟩
  · exact .ok trivial

theorem blamesOr_requireOpen : BlamesOr i c (fun _ => True) (m.requireOpen o i c) := by
  unfold requireOpen require
  split
  · exact .error ⟨rfl, rfl⟩
  · exact .ok trivial

theorem blamesOr_requireDepth (depth : Nat) (hc : c = '.' ∨ c = '[') :
    BlamesOr i c (fun _ => True) (requireDepth o depth i) := by
  unfold requireDepth
  split
  · exact .ok trivial
  · exact .error ⟨rfl, hc⟩

/-- **A character is to blame or passed over.** Only a lenient reader stops, at a bracket that
closes nothing. -/
theorem step_blamesOr (h : o.mode = .strict ∨ ¬(c = ']' ∧ m.stack = [])) :
    BlamesOr i c (fun r => ∃ m', r = .inl m' ∧ Follows i c m.stack m'.stack) (m.step o i c) := by
  have hkey := blamesOr_requireKey (o := o) m i c
  have hopen := blamesOr_requireOpen (o := o) m i c
  rcases delimiter_cases c with rfl | rfl | rfl | rfl | hdel
  -- a comma
  · exact hkey.bind fun _ _ => .ok ⟨_, rfl, .inr (.inr ⟨by decide, by decide, rfl⟩)⟩
  -- a dot
  · exact hopen.bind fun _ _ => hkey.bind fun _ _ =>
      (blamesOr_requireDepth i '.' _ (.inl rfl)).bind fun _ _ =>
        .ok ⟨_, rfl, .inr (.inr ⟨by decide, by decide, rfl⟩)⟩
  -- an opening bracket
  · exact hopen.bind fun _ _ => hkey.bind fun _ _ =>
      (blamesOr_requireDepth i '[' _ (.inr rfl)).bind fun _ _ =>
        .ok ⟨_, rfl, .inl ⟨rfl, _, rfl⟩⟩
  -- a closing bracket: outside every group it is to blame
  · unfold step
    cases hs : m.stack with
    | nil =>
      have ho : o.mode = .strict := h.resolve_right fun hn => hn ⟨rfl, hs⟩
      have hstrict : require o false (.unexpectedClosingBracket i) =
          .error (.unexpectedClosingBracket i) := by simp [require, Options.isStrict, ho]
      show BlamesOr i ']' _ (require o false (.unexpectedClosingBracket i) >>= _)
      rw [hstrict]
      exact .error ⟨rfl, rfl⟩
    | cons g stack => exact hkey.bind fun _ _ => .ok ⟨_, rfl, .inr (.inl ⟨rfl, g, rfl⟩)⟩
  -- a character of a key
  · have hne := not_isDelimiter_iff.1 hdel
    have hstep : m.step o i c = m.requireOpen o i c >>= fun _ =>
        .ok (.inl { m with key := m.key.push c }) := by
      unfold step
      split <;> simp_all
      rfl
    rw [hstep]
    exact hopen.bind fun _ _ => .ok ⟨_, rfl, .inr (.inr ⟨hne.2.2.1, hne.2.2.2, rfl⟩)⟩

end Steps

/-! ### Many characters -/

/-- From one state, at place `i`, the machine passes over the characters to another state. -/
inductive Reaches (o : Options) : Machine → Nat → List Char → Machine → Prop
  | refl (m : Machine) (i : Nat) : Reaches o m i [] m
  | step {m m₁ m' : Machine} {i : Nat} {c : Char} {cs : List Char}
      (hstep : m.step o i c = .ok (.inl m₁)) (hrest : Reaches o m₁ (i + 1) cs m') :
      Reaches o m i (c :: cs) m'

/-- Behind the characters that it has passed over the machine goes on from the state it is in. -/
theorem Reaches.runFrom_append {o : Options} {m m' : Machine} {i : Nat} {cs : List Char}
    (h : Reaches o m i cs m') (last : Option Char) (rest : List Char) :
    m.runFrom o i last (cs ++ rest) =
      m'.runFrom o (i + cs.length) (cs.getLast?.or last) rest := by
  induction h generalizing last with
  | refl m i => rfl
  | @step m m₁ m' i c cs hstep _ ih =>
    rw [List.cons_append, runFrom, hstep]
    show m₁.runFrom o (i + 1) (some c) (cs ++ rest) = _
    have hlast : (c :: cs).getLast?.or last = cs.getLast?.or (some c) := by
      rw [List.getLast?_cons]
      cases cs.getLast? <;> rfl
    have hplace : i + 1 + cs.length = i + (c :: cs).length := by
      rw [List.length_cons]
      omega
    rw [ih, hlast, hplace]

/-- Behind what it has read the machine passes over the characters, and the open groups are the
brackets that nothing has closed; or the first character that it does not pass over is to blame. -/
def PassesOrBlames (o : Options) (m : Machine) (read cs : List Char) : Prop :=
  (∃ m', Reaches o m read.length cs m' ∧ EnclosedBy (read ++ cs) m'.stack) ∨
    ∃ before c after m' fault, cs = before ++ c :: after ∧ Reaches o m read.length before m' ∧
      m'.step o (read.length + before.length) c = .error fault ∧
      fault.Blames (read.length + before.length) c

/-- A bracket that closes nothing has too many closing brackets before it. -/
theorem not_stops {read cs : List Char} {m : Machine} {c : Char} (h : EnclosedBy read m.stack)
    (hcs : ∀ n, ((read ++ c :: cs).take n).count ']' ≤ ((read ++ c :: cs).take n).count '[') :
    ¬(c = ']' ∧ m.stack = []) := by
  rintro ⟨rfl, hs⟩
  have hcount := h.count_eq
  have hle := hcs (read.length + 1)
  have htake : (read ++ ']' :: cs).take (read.length + 1) = read ++ [']'] := by
    rw [List.append_cons, List.take_left' (by simp)]
  rw [htake, List.count_append, List.count_append] at hle
  rw [hs, List.length_nil] at hcount
  simp at hle
  omega

/-- **Characters are passed over, or the first that is not is to blame.** This holds of a strict
reader, and where every closing bracket closes a group. -/
theorem passes_or_blames {o : Options} (cs read : List Char) (m : Machine)
    (ho : o.mode = .strict ∨
      ∀ n, ((read ++ cs).take n).count ']' ≤ ((read ++ cs).take n).count '[')
    (h : EnclosedBy read m.stack) : PassesOrBlames o m read cs := by
  induction cs generalizing read m with
  | nil => exact .inl ⟨m, .refl m _, by simpa using h⟩
  | cons c cs ih =>
    rcases step_blamesOr m read.length c (ho.imp_right fun hcs => not_stops h hcs) with
      ⟨fault, herr, hblames⟩ | ⟨_, hstep, m₁, rfl, hstack⟩
    · exact .inr ⟨[], c, cs, m, fault, rfl, .refl m _, herr, hblames⟩
    · have henc : EnclosedBy (read ++ [c]) m₁.stack := h.follow hstack
      have hlen : (read ++ [c]).length = read.length + 1 := by simp
      rw [List.append_cons] at ho
      rcases ih (read ++ [c]) m₁ ho henc with ⟨m', hreach, henc'⟩ | ⟨before, d, after, m', fault,
          hcs, hreach, herr, hblames⟩
      · rw [hlen] at hreach
        exact .inl ⟨m', .step hstep hreach, by simpa using henc'⟩
      · rw [hlen] at hreach herr hblames
        have hplace : read.length + 1 + before.length = read.length + (c :: before).length := by
          rw [List.length_cons]
          omega
        rw [hplace] at herr hblames
        exact .inr ⟨c :: before, d, after, m', fault, by rw [hcs]; rfl, .step hstep hreach, herr,
          hblames⟩

theorem reaches_or_blames {o : Options} (ho : o.mode = .strict) (cs read : List Char) (m : Machine)
    (h : EnclosedBy read m.stack) : PassesOrBlames o m read cs :=
  passes_or_blames cs read m (.inl ho) h

end Machine

end Excerpt.Spec
