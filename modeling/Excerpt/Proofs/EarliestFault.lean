import Excerpt.Proofs.Passing
import Mathlib.Order.Bounds.Defs

/-!
# A strict reader finds fault as early as it can

Whatever a strict reader has passed over can still be completed to a specification that it accepts.
So the character that it finds fault with is the first one behind which nothing can mend the text.

* `Viable` — the beginning of a text that is accepted;
* `IsInnermostOpen` — the place of the innermost bracket that nothing closes;
* `viable_of_reaches` — what has been passed over can be completed;
* `parse_strict_error_earliest` — the place of the fault is the earliest possible.
-/

namespace Excerpt.Spec

/-- Some text that begins with the characters, blanks left out, is accepted. -/
def Viable (o : Options) (cs : List Char) : Prop :=
  ∃ text ks, KeySpec.parse o text = .ok ks ∧ cs <+: Text.compact text

/-- At the place stands an opening bracket, and the brackets behind it match each other: nothing
closes it, and every group that is opened behind it is closed. -/
def IsInnermostOpen (cs : List Char) (place : Nat) : Prop :=
  cs[place]? = some '[' ∧ Balanced (cs.drop (place + 1))

/-- The fault lies with the character at place `q`, and every text that agrees up to this character
has the same fault. -/
def FaultWithin (o : Options) (cs : List Char) (q : Nat) (fault : Fault) : Prop :=
  (∃ c, cs[q]? = some c ∧ fault.Blames q c) ∧
    ∀ text, cs.take (q + 1) <+: Text.compact text → KeySpec.parse o text = .error fault

/-- The fault is what is missing at the end: the end of the innermost open group, or, outside every
group, a key behind the last character. -/
def FaultAtEnd (cs : List Char) (fault : Fault) : Prop :=
  (0 < openGroups cs →
    ∃ place, (∀ n, IsInnermostOpen cs n ↔ n = place) ∧ fault = .unclosedGroup place) ∧
  (openGroups cs = 0 → ∃ c, cs.getLast? = some c ∧ fault = .emptyKey (cs.length - 1) c)

/-! ### Brackets -/

/-- Of two open brackets nothing would close the inner one, and the brackets behind the outer one
would not match each other. -/
theorem IsInnermostOpen.not_lt {cs : List Char} {m n : Nat} (hm : IsInnermostOpen cs m)
    (hn : IsInnermostOpen cs n) : ¬ m < n := by
  intro hlt
  obtain ⟨hlen, hget⟩ := List.getElem?_eq_some_iff.1 hn.1
  have hdrop : (cs.drop (m + 1)).drop (n - (m + 1)) = '[' :: cs.drop (n + 1) := by
    rw [List.drop_drop, show m + 1 + (n - (m + 1)) = n by omega, List.drop_eq_getElem_cons hlen,
      hget]
  have htotal := hm.2.2
  have hbetween := hm.2.1 (n - (m + 1))
  have hbehind := hn.2.2
  rw [← List.take_append_drop (n - (m + 1)) (cs.drop (m + 1)), hdrop, List.count_append,
    List.count_append] at htotal
  simp at htotal
  omega

/-- There is one innermost open bracket at most. -/
theorem IsInnermostOpen.unique {cs : List Char} {m n : Nat} (hm : IsInnermostOpen cs m)
    (hn : IsInnermostOpen cs n) : m = n := by
  have hmn := hm.not_lt hn
  have hnm := hn.not_lt hm
  omega

theorem EnclosedBy.isInnermostOpen {as : List Char} {g : OpenGroup} {stack : List OpenGroup}
    (h : EnclosedBy as (g :: stack)) : IsInnermostOpen as g.place := by
  obtain ⟨outer, inner, rfl, hg, hi, -⟩ := h
  rw [hg]
  refine ⟨by simp, ?_⟩
  rw [List.append_cons, List.drop_left' (by simp)]
  exact hi

namespace Machine

/-! ### Completing a text -/

section Completion

variable {o : Options}

/-- Closing all groups, where no key is missing, completes a text. -/
theorem exists_runFrom_closing (m : Machine) (i : Nat) (last : Option Char)
    (h : m.key ≠ "" ∨ m.afterGroup = true) :
    ∃ r, m.runFrom o i last (List.replicate m.stack.length ']') = .ok r := by
  have hkey : ∀ j d, m.requireKey o j d = .ok () := by
    intro j d
    have hcond : (m.key ≠ "" || m.afterGroup) = true := by simpa using h
    unfold requireKey require
    rw [hcond]
    simp
  generalize hn : m.stack.length = n
  induction n generalizing m i last with
  | zero =>
    have hs := List.eq_nil_of_length_eq_zero hn
    refine ⟨m.emitted, ?_⟩
    show m.finish o i last = .ok m.emitted
    cases last with
    | none => simp only [finish, hs]
    | some c =>
      simp only [finish, hs, hkey]
      rfl
  | succ n ih =>
    cases hs : m.stack with
    | nil => simp [hs] at hn
    | cons g stack =>
      have hlen : stack.length = n := by simpa [hs] using hn
      obtain ⟨r, hr⟩ := ih ⟨stack, [], "", true, m.emitted⟩ (i + 1) (some ']') (.inr rfl)
        (fun j d => by simp [requireKey, require]) hlen
      refine ⟨r, ?_⟩
      have hstep : m.step o i ']' = .ok (.inl ⟨stack, [], "", true, m.emitted⟩) := by
        simp only [step, hs, hkey]
        rfl
      rw [List.replicate_succ, runFrom, hstep]
      exact hr

/-- A key, where one is missing, and the closing of all groups complete a text. -/
theorem exists_completion (m : Machine) (i : Nat) (last : Option Char) :
    ∃ rest r, m.runFrom o i last rest = .ok r ∧ ∀ c ∈ rest, c = 'k' ∨ c = ']' := by
  by_cases h : m.key ≠ "" ∨ m.afterGroup = true
  · obtain ⟨r, hr⟩ := exists_runFrom_closing m i last h
    exact ⟨_, r, hr, fun c hc => .inr (List.eq_of_mem_replicate hc)⟩
  · have hbare : m.key = "" ∧ m.afterGroup = false := by simpa using h
    have hstep : m.step o i 'k' = .ok (.inl { m with key := m.key.push 'k' }) := by
      have hopen : requireOpen o m i 'k' = .ok () := by simp [requireOpen, require, hbare.2]
      simp only [step, hopen]
      rfl
    obtain ⟨r, hr⟩ := exists_runFrom_closing (o := o) { m with key := m.key.push 'k' } (i + 1)
      (some 'k') (.inl (by simp [hbare.1]))
    refine ⟨'k' :: List.replicate m.stack.length ']', r, ?_, ?_⟩
    · rw [runFrom, hstep]
      exact hr
    · intro c hc
      rcases List.mem_cons.1 hc with rfl | hc
      · exact .inl rfl
      · exact .inr (List.eq_of_mem_replicate hc)

end Completion

end Machine

theorem compact_ofList {cs : List Char} (h : ∀ c ∈ cs, Text.isBlank c = false) :
    Text.compact (String.ofList cs) = cs := by
  rw [Text.compact, String.toList_ofList, List.filter_eq_self]
  intro c hc
  rw [h c hc]
  rfl

theorem viable_of_prefix {o : Options} {as bs : List Char} (h : as <+: bs) (hb : Viable o bs) :
    Viable o as := by
  obtain ⟨text, ks, hparse, hbs⟩ := hb
  exact ⟨text, ks, hparse, h.trans hbs⟩

/-- **What the machine has passed over can be completed.** -/
theorem viable_of_reaches {o : Options} {cs : List Char} (hcs : ∀ c ∈ cs, Text.isBlank c = false)
    {m : Machine} (h : Machine.Reaches o {} 0 cs m) : Viable o cs := by
  obtain ⟨rest, r, hr, hrest⟩ := m.exists_completion (o := o) (0 + cs.length) (cs.getLast?.or none)
  have hblank : ∀ c ∈ cs ++ rest, Text.isBlank c = false := by
    intro c hc
    rcases List.mem_append.1 hc with hc | hc
    · exact hcs c hc
    · rcases hrest c hc with rfl | rfl <;> decide
  refine ⟨String.ofList (cs ++ rest), ⟨r⟩, ?_, ?_⟩
  · have hrun : Machine.run o (cs ++ rest) = .ok r := (h.runFrom_append none rest).trans hr
    rw [parse_eq_run, compact_ofList hblank, hrun]
    rfl
  · rw [compact_ofList hblank]
    exact List.prefix_append cs rest

/-! ### The place of the fault -/

section Refusal

variable {o : Options} {cs before : List Char} {m : Machine} {fault : Fault}

/-- Every text that goes on with a character to blame has the same fault. -/
theorem parse_of_blamed (hreach : Machine.Reaches o {} 0 before m) {c : Char}
    (herr : m.step o before.length c = .error fault) {text : String}
    (h : before ++ [c] <+: Text.compact text) : KeySpec.parse o text = .error fault := by
  obtain ⟨rest, hrest⟩ := h
  rw [parse_eq_error_iff, ← hrest, List.append_assoc]
  refine (hreach.runFrom_append none _).trans ?_
  rw [Nat.zero_add, List.singleton_append, Machine.runFrom, herr]

/-- The faults of the end of a text. -/
theorem finish_eq_error (ho : o.mode = .strict) {last : Option Char}
    (h : m.finish o cs.length last = .error fault) :
    (∃ g stack, m.stack = g :: stack ∧ fault = .unclosedGroup g.place) ∨
      (m.stack = [] ∧ ∃ c, last = some c ∧ fault = .emptyKey (cs.length - 1) c) := by
  cases hs : m.stack with
  | cons g stack =>
    have hfault : (.error (.unclosedGroup g.place) : Except Fault (List Selection)) =
        .error fault := by
      rw [← h]
      simp only [Machine.finish, hs, Machine.require, Options.isStrict, ho]
      rfl
    exact .inl ⟨g, stack, rfl, (Except.error.inj hfault).symm⟩
  | nil =>
    cases last with
    | none => simp [Machine.finish, hs] at h
    | some c =>
      simp only [Machine.finish, hs] at h
      rcases bind_eq_error.1 h with hkey | ⟨_, _, hr⟩
      · refine .inr ⟨rfl, c, rfl, ?_⟩
        unfold Machine.requireKey Machine.require at hkey
        split at hkey
        · exact (Except.error.inj hkey).symm
        · simp at hkey
      · cases hr

theorem faultAtEnd_of_finish (ho : o.mode = .strict) (henc : EnclosedBy cs m.stack)
    (h : m.finish o cs.length cs.getLast? = .error fault) : FaultAtEnd cs fault := by
  have hopen := henc.openGroups_eq
  rcases finish_eq_error ho h with ⟨g, stack, hs, hfault⟩ | ⟨hs, hfault⟩
  · rw [hs] at henc hopen
    have hplace := henc.isInnermostOpen
    refine ⟨fun _ => ⟨g.place, fun n => ⟨fun hn => hn.unique hplace, ?_⟩, hfault⟩, fun hzero => ?_⟩
    · rintro rfl
      exact hplace
    · rw [List.length_cons] at hopen
      omega
  · rw [hs, List.length_nil] at hopen
    refine ⟨fun hpos => ?_, fun _ => hfault⟩
    omega

/-- What stands before a character to blame can be completed, and with it nothing can. -/
theorem isGreatest_of_blamed {after : List Char} {c : Char} (hcs : cs = before ++ c :: after)
    (hbefore : Viable o before)
    (hrefused : ∀ text, before ++ [c] <+: Text.compact text →
      KeySpec.parse o text = .error fault) :
    IsGreatest {n | n ≤ cs.length ∧ Viable o (cs.take n)} before.length := by
  have hlt : before.length < cs.length := by
    rw [hcs]
    simp
  refine ⟨⟨Nat.le_of_lt hlt, by rwa [hcs, List.take_left]⟩, ?_⟩
  rintro n ⟨-, hn⟩
  refine Nat.le_of_not_lt fun hlt => ?_
  have hpre : before ++ [c] <+: cs.take n := by
    have htake : (before ++ c :: after).take (before.length + 1) = before ++ [c] := by
      rw [List.append_cons, List.take_left' (by simp)]
    rw [hcs, ← htake]
    exact List.take_prefix_take_left hlt
  obtain ⟨text, ks, hparse, htext⟩ := viable_of_prefix hpre hn
  rw [hrefused text htext] at hparse
  cases hparse

end Refusal

/-- **A strict reader finds fault as early as it can.** Let `q` be the length of the longest
beginning of a refused text, blanks left out, that can be completed to an accepted one. If that is
not all of the text, the fault lies with the character at place `q`; if it is, the fault is what is
missing at the end. -/
theorem parse_strict_error_earliest {o : Options} (ho : o.mode = .strict) {text : String}
    {cs : List Char} (hcs : Text.compact text = cs) {fault : Fault}
    (h : KeySpec.parse o text = .error fault) :
    ∃ q, IsGreatest {n | n ≤ cs.length ∧ Viable o (cs.take n)} q ∧
      (q < cs.length → FaultWithin o cs q fault) ∧ (q = cs.length → FaultAtEnd cs fault) := by
  have hblank : ∀ c ∈ cs, Text.isBlank c = false := by
    intro c hc
    rw [← hcs] at hc
    exact (Text.mem_compact.1 hc).2
  have henc : EnclosedBy [] ({} : Machine).stack := balanced_nil
  rcases Machine.reaches_or_blames ho cs [] {} henc with ⟨m, hreach, henc⟩ | ⟨before, c, after, m,
    found, hsplit, hreach, herr, hblames⟩
  · -- everything is passed over
    have hviable : Viable o (cs.take cs.length) := by
      rw [List.take_length]
      exact viable_of_reaches hblank hreach
    have hend : m.finish o cs.length cs.getLast? = .error fault := by
      have hrun := hreach.runFrom_append none []
      rw [List.append_nil, List.length_nil, Nat.zero_add, Option.or_none] at hrun
      rw [parse_eq_error_iff, hcs] at h
      exact hrun.symm.trans h
    rw [List.nil_append] at henc
    exact ⟨cs.length, ⟨⟨Nat.le_refl _, hviable⟩, fun n hn => hn.1⟩,
      fun hlt => absurd hlt (Nat.lt_irrefl _), fun _ => faultAtEnd_of_finish ho henc hend⟩
  · -- a character is to blame
    rw [List.length_nil, Nat.zero_add] at herr hblames
    have hrefused : ∀ other, before ++ [c] <+: Text.compact other →
        KeySpec.parse o other = .error found := fun other => parse_of_blamed hreach herr
    have hpre : before ++ [c] <+: cs := ⟨after, by rw [hsplit, ← List.append_cons]⟩
    obtain rfl : fault = found := by
      rw [hrefused text (hcs ▸ hpre)] at h
      exact (Except.error.inj h).symm
    have hbefore : Viable o before :=
      viable_of_reaches (fun d hd => hblank d (hpre.subset (List.mem_append_left _ hd))) hreach
    have hget : cs[before.length]? = some c := by
      rw [hsplit]
      simp
    have htake : cs.take (before.length + 1) = before ++ [c] := by
      rw [hsplit, List.append_cons, List.take_left' (by simp)]
    refine ⟨before.length, isGreatest_of_blamed hsplit hbefore hrefused,
      fun _ => ⟨⟨c, hget, hblames⟩, ?_⟩, fun heq => ?_⟩
    · rw [htake]
      exact hrefused
    · rw [hsplit, List.length_append, List.length_cons] at heq
      omega

/-- Under a limit of two keys the second bracket of `a[b.c[d]]` is to blame. All of `x[a[b],c.` can
be completed, and the first bracket is the innermost one that is open. -/
theorem parse_strict_error_earliest_bracket_and_end :
    ((⟨.strict, 2⟩ : Options).mode = .strict ∧
      Text.compact "a[b.c[d]]" = "a[b.c[d]]".toList ∧
      KeySpec.parse ⟨.strict, 2⟩ "a[b.c[d]]" = .error (.depthExceeded 3 2 5) ∧
      ∃ q, IsGreatest {n | n ≤ "a[b.c[d]]".toList.length ∧
          Viable ⟨.strict, 2⟩ ("a[b.c[d]]".toList.take n)} q ∧
        (q < "a[b.c[d]]".toList.length →
          FaultWithin ⟨.strict, 2⟩ "a[b.c[d]]".toList q (.depthExceeded 3 2 5)) ∧
        (q = "a[b.c[d]]".toList.length →
          FaultAtEnd "a[b.c[d]]".toList (.depthExceeded 3 2 5))) ∧
    (Options.strict.mode = .strict ∧
      Text.compact "x[a[b], c." = "x[a[b],c.".toList ∧
      KeySpec.parse .strict "x[a[b], c." = .error (.unclosedGroup 1) ∧
      ∃ q, IsGreatest {n | n ≤ "x[a[b],c.".toList.length ∧
          Viable .strict ("x[a[b],c.".toList.take n)} q ∧
        (q < "x[a[b],c.".toList.length →
          FaultWithin .strict "x[a[b],c.".toList q (.unclosedGroup 1)) ∧
        (q = "x[a[b],c.".toList.length → FaultAtEnd "x[a[b],c.".toList (.unclosedGroup 1))) := by
  have hcs : Text.compact "a[b.c[d]]" = "a[b.c[d]]".toList := by decide +kernel
  have h : KeySpec.parse ⟨.strict, 2⟩ "a[b.c[d]]" = .error (.depthExceeded 3 2 5) := by
    rw [parse_eq_run]
    rfl
  have hcs' : Text.compact "x[a[b], c." = "x[a[b],c.".toList := by decide +kernel
  have h' : KeySpec.parse .strict "x[a[b], c." = .error (.unclosedGroup 1) := by
    rw [parse_eq_run]
    rfl
  exact ⟨⟨rfl, hcs, h, parse_strict_error_earliest rfl hcs h⟩,
    ⟨rfl, hcs', h', parse_strict_error_earliest rfl hcs' h'⟩⟩

end Excerpt.Spec
