import Excerpt.Proofs.OnePass
import Excerpt.Spec.Brackets

/-!
# Keys and steps are the runs of a text

However groups are nested, a reader takes every run of characters once: those that end a selection
become the keys, in the order of the text, and the others become steps.

* `terminals` — the texts of the runs that end a selection;
* `ahead` — the runs that a state of the machine has before it;
* `map_key_runFrom` — the keys that the machine finds from there on;
* `steps_runFrom` — the steps of their trajectories;
* `keys_eq_terminals` — the keys and steps of a specification.
-/

namespace Excerpt.Spec

/-- Whether a run becomes a step: a dot or an opening bracket follows. -/
def Run.isStep (r : Run) : Bool := r.follower = some '.' || r.follower = some '['

/-- The texts of the runs that end a selection. -/
def terminals (rs : List Run) : List String := (rs.filter Run.isTerminal).map Run.text

/-! ### Runs -/

section Runs

variable {read : List Char} {follower : Option Char}

theorem terminals_append (rs rs' : List Run) :
    terminals (rs ++ rs') = terminals rs ++ terminals rs' := by
  simp [terminals]

/-- The key that is read becomes a selection, where what follows ends it. -/
theorem terminals_ofRead (p : Pending)
    (h : follower = none ∨ follower = some ',' ∨ follower = some ']') :
    terminals (Run.ofRead p.key.toList follower) = p.emit.map Selection.key := by
  by_cases hk : p.key = ""
  · simp [Run.ofRead, Pending.emit, terminals, hk]
  · rcases h with rfl | rfl | rfl <;>
      simp [Run.ofRead, Pending.emit, terminals, Run.isTerminal, hk]

theorem terminals_ofRead_step (h : follower = some '.' ∨ follower = some '[') :
    terminals (Run.ofRead read follower) = [] := by
  unfold Run.ofRead
  split
  · rfl
  · rcases h with rfl | rfl <;> rfl

theorem mem_ofRead {key : String} (hk : key ≠ "") :
    ⟨key, follower⟩ ∈ Run.ofRead key.toList follower := by
  simp [Run.ofRead, hk]

end Runs

namespace Machine

/-- The runs that a state of the machine has before it, with the one that it is reading. -/
def ahead (stack : List OpenGroup) (p : Pending) (cs : List Char) : List Run :=
  runsFrom p.key.toList (readPartFrom stack.length cs)

section Ahead

variable {stack stack' : List OpenGroup} {p q : Pending} {i : Nat} {c : Char} {cs : List Char}

theorem ahead_nil : ahead stack p [] = Run.ofRead p.key.toList none := rfl

theorem ahead_stop : ahead [] p (']' :: cs) = Run.ofRead p.key.toList none := rfl

/-- Behind a delimiter the key that was read is a run, and a new key begins. -/
theorem ahead_delimiter (hc : isDelimiter c = true) (hstop : ¬(c = ']' ∧ stack.length = 0))
    (hs : stack'.length = nextDepth stack.length c) (hq : q.key = "") :
    ahead stack p (c :: cs) = Run.ofRead p.key.toList (some c) ++ ahead stack' q cs := by
  unfold ahead
  rw [readPartFrom, if_neg hstop, runsFrom, if_pos hc, hs, hq]
  rfl

theorem ahead_comma : ahead stack p (',' :: cs) = Run.ofRead p.key.toList (some ',') ++
    ahead stack (.nextSibling (innermost stack) i) cs :=
  ahead_delimiter rfl (by simp) rfl rfl

theorem ahead_dot : ahead stack p ('.' :: cs) = Run.ofRead p.key.toList (some '.') ++
    ahead stack (p.descend i) cs :=
  ahead_delimiter rfl (by simp) rfl rfl

theorem ahead_open : ahead stack p ('[' :: cs) = Run.ofRead p.key.toList (some '[') ++
    ahead (⟨p.groupKeys, i⟩ :: stack) (.start ⟨p.groupKeys, some i⟩) cs :=
  ahead_delimiter rfl (by simp) rfl rfl

theorem ahead_close {g : OpenGroup} : ahead (g :: stack) p (']' :: cs) =
    Run.ofRead p.key.toList (some ']') ++ ahead stack (.behindGroup i) cs :=
  ahead_delimiter rfl (by simp) rfl rfl

theorem ahead_char (hc : isDelimiter c = false) :
    ahead stack p (c :: cs) = ahead stack (p.extend i c) cs := by
  have hne := not_isDelimiter_iff.1 hc
  have hdepth : nextDepth stack.length c = stack.length := by simp [nextDepth, hne]
  unfold ahead
  rw [readPartFrom, if_neg (by simp [hne]), runsFrom, if_neg (by simp [hc]), hdepth]
  simp [Pending.extend]

end Ahead

section Finds

variable {o : Options} {stack : List OpenGroup} {p : Pending} {found : List Selection} {i : Nat}
  {last : Option Char} {cs : List Char} {r : List Selection}

/-- **The keys that the machine finds** are those it has found already, and the texts of the runs
before it that end a selection. -/
theorem map_key_runFrom (hl : Agrees stack p i last)
    (hr : (ofPending stack p found).runFrom o i last cs = .ok r) :
    r.map Selection.key = found.map Selection.key ++ terminals (ahead stack p cs) := by
  induction cs generalizing stack p found i last with
  | nil =>
    rw [runFrom_nil hl, check_eq_ok] at hr
    cases hr.2
    rw [ahead_nil, terminals_ofRead p (.inl rfl), List.map_append]
  | cons c cs ih =>
    rcases delimiter_cases c with rfl | rfl | rfl | rfl | hdel
    -- a comma
    · rw [runFrom_comma, check_eq_ok] at hr
      rw [ih (agrees_of_last rfl) hr.2, ahead_comma, terminals_append,
        terminals_ofRead p (.inr (.inl rfl)), List.map_append, List.append_assoc]
    -- a dot
    · rw [runFrom_dot, check_eq_ok, check_eq_ok] at hr
      rw [ih (agrees_of_last rfl) hr.2.2, ahead_dot, terminals_append,
        terminals_ofRead_step (.inl rfl), List.nil_append]
    -- an opening bracket
    · rw [runFrom_open, check_eq_ok, check_eq_ok] at hr
      rw [ih (by simp [Agrees]) hr.2.2, ahead_open, terminals_append,
        terminals_ofRead_step (.inr rfl), List.nil_append]
    -- a closing bracket
    · cases stack with
      | nil =>
        rw [runFrom_close_nil, check_eq_ok] at hr
        cases hr.2
        rw [ahead_stop, terminals_ofRead p (.inl rfl), List.map_append]
      | cons g stack =>
        rw [runFrom_close_cons, check_eq_ok] at hr
        rw [ih (agrees_of_last rfl) hr.2, ahead_close, terminals_append,
          terminals_ofRead p (.inr (.inr rfl)), List.map_append, List.append_assoc]
    -- a character of a key
    · rw [runFrom_char hdel, check_eq_ok] at hr
      rw [ih (agrees_of_last rfl) hr.2, ahead_char hdel]

/-- All steps of the selections have a property. -/
def StepsIn (S : String → Prop) (ss : List Selection) : Prop :=
  ∀ s ∈ ss, ∀ step ∈ s.trajectory, S step

theorem StepsIn.emit {S : String → Prop} (hfound : StepsIn S found)
    (hp : ∀ step ∈ p.trajectory, S step) : StepsIn S (found ++ p.emit) := by
  intro s hs
  rcases List.mem_append.1 hs with hs | hs
  · exact hfound s hs
  · unfold Pending.emit at hs
    split at hs
    · simp at hs
    · rw [List.mem_singleton.1 hs]
      exact hp

/-- **The steps of what the machine finds** are those of the state it is in, empty, or the texts of
runs before it that become a step. -/
theorem steps_runFrom {S : String → Prop} (hl : Agrees stack p i last)
    (hr : (ofPending stack p found).runFrom o i last cs = .ok r) (hempty : S "")
    (hahead : ∀ run ∈ ahead stack p cs, run.isStep = true → S run.text)
    (hp : ∀ step ∈ p.trajectory, S step) (hstack : ∀ g ∈ stack, ∀ step ∈ g.keys, S step)
    (hfound : StepsIn S found) : StepsIn S r := by
  induction cs generalizing stack p found i last with
  | nil =>
    rw [runFrom_nil hl, check_eq_ok] at hr
    cases hr.2
    exact hfound.emit hp
  | cons c cs ih =>
    have hinherited : ∀ step ∈ (innermost stack).inherited, S step := by
      cases stack with
      | nil => simp [innermost, Level.top]
      | cons g stack => exact hstack g List.mem_cons_self
    -- the key that is read, where it becomes a step
    have hkey : ∀ d, d = '.' ∨ d = '[' → (∀ run ∈ Run.ofRead p.key.toList (some d),
        run.isStep = true → S run.text) → ∀ step ∈ p.trajectory ++ [p.key], S step := by
      intro d hd hrun step hstep
      rcases List.mem_append.1 hstep with hstep | hstep
      · exact hp step hstep
      · rw [List.mem_singleton.1 hstep]
        by_cases hk : p.key = ""
        · rwa [hk]
        · exact hrun ⟨p.key, some d⟩ (mem_ofRead hk) (by rcases hd with rfl | rfl <;> rfl)
    rcases delimiter_cases c with rfl | rfl | rfl | rfl | hdel
    -- a comma
    · rw [runFrom_comma, check_eq_ok] at hr
      rw [ahead_comma, List.forall_mem_append] at hahead
      exact ih (agrees_of_last rfl) hr.2 hahead.2 hinherited hstack (hfound.emit hp)
    -- a dot
    · rw [runFrom_dot, check_eq_ok, check_eq_ok] at hr
      rw [ahead_dot, List.forall_mem_append] at hahead
      exact ih (agrees_of_last rfl) hr.2.2 hahead.2 (hkey '.' (.inl rfl) hahead.1) hstack hfound
    -- an opening bracket
    · rw [runFrom_open, check_eq_ok, check_eq_ok] at hr
      rw [ahead_open, List.forall_mem_append] at hahead
      have hkeys := hkey '[' (.inr rfl) hahead.1
      exact ih (by simp [Agrees]) hr.2.2 hahead.2 hkeys (List.forall_mem_cons.2 ⟨hkeys, hstack⟩)
        hfound
    -- a closing bracket
    · cases stack with
      | nil =>
        rw [runFrom_close_nil, check_eq_ok] at hr
        cases hr.2
        exact hfound.emit hp
      | cons g stack =>
        rw [runFrom_close_cons, check_eq_ok] at hr
        rw [ahead_close, List.forall_mem_append] at hahead
        exact ih (agrees_of_last rfl) hr.2 hahead.2 (by simp [Pending.behindGroup])
          (List.forall_mem_cons.1 hstack).2 (hfound.emit hp)
    -- a character of a key
    · rw [runFrom_char hdel, check_eq_ok] at hr
      rw [ahead_char (i := i) hdel] at hahead
      exact ih (agrees_of_last rfl) hr.2 hahead hp hstack hfound

end Finds

end Machine

/-- **No key is lost, repeated or invented.** Take the runs of a text, blanks left out, before the
first `]` that closes nothing. The keys of the selections are those of the runs that end a
selection, in order; and each step is empty or one of the runs that become a step. -/
theorem keys_eq_terminals {o : Options} {text : String} {ks : KeySpec}
    (h : KeySpec.parse o text = .ok ks) :
    ks.selections.map Selection.key =
        ((runs (readPart (Text.compact text))).filter Run.isTerminal).map Run.text ∧
      ∀ s ∈ ks.selections, ∀ step ∈ s.trajectory, step = "" ∨
        ∃ r ∈ runs (readPart (Text.compact text)),
          r.text = step ∧ (r.follower = some '.' ∨ r.follower = some '[') := by
  have hrun : (Machine.ofPending [] (.start .top) []).runFrom o 0 none (Text.compact text) =
      .ok ks.selections := parse_eq_ok_iff_run.1 h
  refine ⟨Machine.map_key_runFrom Machine.agrees_start hrun, ?_⟩
  refine Machine.steps_runFrom Machine.agrees_start hrun (.inl rfl) (fun run hmem hstep => ?_)
    (by simp [Pending.start, Level.top]) (by simp) (by simp [Machine.StepsIn])
  exact .inr ⟨run, hmem, rfl, by simpa [Run.isStep] using hstep⟩

/-- A step without a key, a key behind a group, a group below no key, and a bracket that closes
nothing, behind which nothing is read. -/
theorem keys_eq_terminals_of_oddities :
    KeySpec.parse .default "a. .b[c,d[e]f,[g]]x, y]z" =
        .ok ⟨[⟨["a", "", "b"], "c"⟩, ⟨["a", "", "b", "d"], "e"⟩, ⟨[], "f"⟩,
          ⟨["a", "", "b", ""], "g"⟩, ⟨[], "x"⟩, ⟨[], "y"⟩]⟩ ∧
      ["c", "e", "f", "g", "x", "y"] =
        ((runs (readPart (Text.compact "a. .b[c,d[e]f,[g]]x, y]z"))).filter Run.isTerminal).map
          Run.text ∧
      ∀ step ∈ ["a", "", "b", "d"], step = "" ∨
        ∃ r ∈ runs (readPart (Text.compact "a. .b[c,d[e]f,[g]]x, y]z")),
          r.text = step ∧ (r.follower = some '.' ∨ r.follower = some '[') := by
  have h : KeySpec.parse .default "a. .b[c,d[e]f,[g]]x, y]z" =
      .ok ⟨[⟨["a", "", "b"], "c"⟩, ⟨["a", "", "b", "d"], "e"⟩, ⟨[], "f"⟩,
        ⟨["a", "", "b", ""], "g"⟩, ⟨[], "x"⟩, ⟨[], "y"⟩]⟩ := by
    rw [parse_eq_run]
    rfl
  have hkeys := keys_eq_terminals h
  exact ⟨h, hkeys.1, hkeys.2 ⟨["a", "", "b", "d"], "e"⟩ (by simp)⟩

end Excerpt.Spec
