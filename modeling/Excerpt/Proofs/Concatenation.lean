import Excerpt.Proofs.Modes
import Excerpt.Proofs.Passing

/-!
# A comma joins specifications

Behind a comma outside every group a reader is where it was before the first character, but for the
place. So the selections of two specifications joined by a comma are those of the one and of the
other, and the faults of the second are found as many places later as the first has characters.

* `Fault.shift`, `Level.shift`, `Pending.shift` — the same some places later;
* `walk_shift` — a walk that starts later finds the same, with its faults that much later;
* `run_balanced` — a text in which every group is closed ends outside every group;
* `parse_comma` — reading two specifications joined by a comma.
-/

namespace Excerpt.Spec

/-! ### Places -/

/-- The same fault some places later. -/
def Fault.shift (n : Nat) : Fault → Fault
  | .unclosedGroup q => .unclosedGroup (q + n)
  | .unexpectedClosingBracket q => .unexpectedClosingBracket (q + n)
  | .emptyKey q found => .emptyKey (q + n) found
  | .unexpectedCharacter q found => .unexpectedCharacter (q + n) found
  | .depthExceeded depth limit q => .depthExceeded depth limit (q + n)

def Level.shift (n : Nat) (level : Level) : Level :=
  { level with openedAt := level.openedAt.map (· + n) }

def Pending.shift (n : Nat) (p : Pending) : Pending :=
  { p with last := p.last.map fun (i, c) => (i + n, c) }

section Shift

variable {o : Options} {level : Level} {p : Pending} {i n : Nat}

theorem mapError_bind {ε ε' α β : Type} (x : Except ε α) (f : α → Except ε β) (g : ε → ε') :
    (x >>= f).mapError g = x.mapError g >>= fun a => (f a).mapError g := by
  cases x <;> rfl

theorem isNone_openedAt_shift : (level.shift n).openedAt.isNone = level.openedAt.isNone := by
  cases h : level.openedAt <;> simp [Level.shift, h]

theorem objection_shift (c : Char) : (p.shift n).objection (level.shift n) (i + n) c =
    (p.objection level i c).map (Fault.shift n) := by
  have hbare : (p.shift n).isBare = p.isBare := rfl
  have hafter : (p.shift n).afterGroup = p.afterGroup := rfl
  have hkey : (p.shift n).key = p.key := rfl
  unfold Pending.objection
  rw [hbare, hafter, hkey, isNone_openedAt_shift]
  split <;> simp only [apply_ite (Option.map (Fault.shift n))] <;> rfl

theorem objectionAtEnd_shift : (p.shift n).objectionAtEnd (level.shift n) =
    (p.objectionAtEnd level).map (Fault.shift n) := by
  have hbare : (p.shift n).isBare = p.isBare := rfl
  unfold Pending.objectionAtEnd
  rw [hbare]
  cases ho : level.openedAt with
  | some q => simp [Level.shift, ho, Fault.shift]
  | none =>
    cases hl : p.last with
    | none => simp [Level.shift, Pending.shift, ho, hl]
    | some last => cases hb : p.isBare <;> simp [Level.shift, Pending.shift, ho, hl, Fault.shift]

theorem heed_shift (objection : Option Fault) :
    heed o (objection.map (Fault.shift n)) = (heed o objection).mapError (Fault.shift n) := by
  unfold heed
  cases o.mode <;> cases objection <;> rfl

theorem checkDepth_shift (depth : Nat) :
    checkDepth o depth (i + n) = (checkDepth o depth i).mapError (Fault.shift n) := by
  unfold checkDepth
  split <;> rfl

/-- **A walk that starts later finds the same.** Its faults are that much later. -/
theorem walk_shift (o : Options) (n : Nat) (level : Level) (cs : List Char) (i : Nat)
    (p : Pending) (j : Nat) (hj : j = i + n) :
    walk o (level.shift n) cs j (p.shift n) = (walk o level cs i p).mapError (Fault.shift n) := by
  induction level, cs, i, p using walk.induct generalizing j with
  | case1 level i p =>
    rw [walk_nil, walk_nil, mapError_bind, objectionAtEnd_shift, heed_shift]
    rfl
  | case2 level c cs i p ihComma ihInner ihBehind ihDot ihChar =>
    subst hj
    have hnext : i + n + 1 = i + 1 + n := by omega
    rcases delimiter_cases c with rfl | rfl | rfl | rfl | hdel
    -- a comma
    · have ih := ihComma _ hnext
      rw [walk_comma, walk_comma, objection_shift, heed_shift, mapError_bind]
      refine bind_congr fun _ => ?_
      rw [mapError_bind, ← ih]
      rfl
    -- a dot
    · have ih := ihDot _ hnext
      rw [walk_dot, walk_dot, objection_shift, heed_shift, mapError_bind]
      refine bind_congr fun _ => ?_
      rw [mapError_bind, ← checkDepth_shift]
      refine bind_congr fun _ => ?_
      rw [mapError_bind, ← ih]
      rfl
    -- a group, and what stands behind it
    · have ih := ihInner _ hnext
      rw [walk_open, walk_open, objection_shift, heed_shift, mapError_bind]
      refine bind_congr fun _ => ?_
      rw [mapError_bind, ← checkDepth_shift]
      refine bind_congr fun _ => ?_
      rw [mapError_bind, ← ih]
      refine bind_congr fun nested => ?_
      have hplace : i + n + nested.consumed = i + nested.consumed + n := by omega
      have ih' := ihBehind nested (i + n + nested.consumed + 1) (by omega)
      rw [mapError_bind, ← ih', hplace]
      rfl
    -- a closing bracket
    · rw [walk_close, walk_close, objection_shift, heed_shift, mapError_bind]
      rfl
    -- a character of a key
    · have ih := ihChar _ hnext
      rw [walk_char hdel, walk_char hdel, objection_shift, heed_shift, mapError_bind]
      refine bind_congr fun _ => ?_
      rw [mapError_bind, ← ih]
      rfl

end Shift

/-! ### Behind a comma -/

section Comma

variable {o : Options} {s t : List Char}

/-- What stands before the first character of a level matters only where there is none. -/
theorem walk_of_last (level : Level) (i : Nat) (p : Pending) (last : Option (Nat × Char))
    (h : o.mode = .lenient ∨ t ≠ []) : walk o level t i { p with last } = walk o level t i p := by
  cases t with
  | nil =>
    have ho := h.resolve_right fun hne => hne rfl
    rw [walk_nil, walk_nil, heed_lenient ho, heed_lenient ho]
    rfl
  | cons c cs =>
    rcases delimiter_cases c with rfl | rfl | rfl | rfl | hdel
    · rw [walk_comma, walk_comma]
      rfl
    · rw [walk_dot, walk_dot]
      rfl
    · rw [walk_open, walk_open]
      rfl
    · rw [walk_close, walk_close]
      rfl
    · rw [walk_char hdel, walk_char hdel]
      rfl

/-- Behind a comma outside every group a walk finds what it finds from the start. -/
theorem walk_nextSibling (n : Nat) (h : o.mode = .lenient ∨ t ≠ []) :
    walk o .top t (n + 1) (.nextSibling .top n) =
      (walk o .top t 0 (.start .top)).mapError (Fault.shift (n + 1)) := by
  rw [← walk_shift o (n + 1) .top t 0 (.start .top) (n + 1) (Nat.zero_add _).symm]
  exact walk_of_last .top (n + 1) (.start .top) (some (n, ',')) h

namespace Machine

/-- **A text in which every group is closed ends outside every group**, unless it is refused
whatever stands behind it. -/
theorem run_balanced (hs : Balanced s) :
    (∃ fault, ∀ rest, run o (s ++ rest) = .error fault) ∨
      ∃ p found, Agrees [] p s.length s.getLast? ∧
        ∀ rest, run o (s ++ rest) = (ofPending [] p found).runFrom o s.length s.getLast? rest := by
  have henc : EnclosedBy [] ({} : Machine).stack := balanced_nil
  rcases passes_or_blames (o := o) s [] {} (.inr hs.1) henc with
    ⟨m, hreach, henc⟩ | ⟨before, c, after, m, fault, rfl, hreach, herr, -⟩
  · right
    have hstack : m.stack = [] := by
      have hcount := henc.count_eq
      have hclosed := hs.2
      rw [List.nil_append] at hcount
      exact List.eq_nil_of_length_eq_zero (by omega)
    refine ⟨⟨m.trajectory, m.key, m.afterGroup, s.getLast?.map fun c => (s.length - 1, c)⟩,
      m.selections, fun _ => ⟨?_, fun q c hlast => ?_⟩, fun rest => ?_⟩
    · cases s.getLast? <;> rfl
    · obtain ⟨d, hd, heq⟩ := Option.map_eq_some_iff.1 hlast
      have hpos := List.length_pos_of_mem (List.mem_of_getLast? hd)
      cases heq
      omega
    · have hrun := hreach.runFrom_append none rest
      rw [List.length_nil, Nat.zero_add, Option.or_none] at hrun
      rw [ofPending, ← hstack]
      exact hrun
  · left
    refine ⟨fault, fun rest => ?_⟩
    have hrun := hreach.runFrom_append none (c :: (after ++ rest))
    rw [List.length_nil] at herr hrun
    rw [runFrom, herr] at hrun
    rw [List.append_assoc, List.cons_append]
    exact hrun

/-- **A comma joins texts.** -/
theorem run_comma (hs : Balanced s)
    (h : o.mode = .lenient ∨ (s ≠ [] ∧ t ≠ [] ∧ ∃ r, run o s = .ok r)) :
    run o (s ++ ',' :: t) = run o s >>= fun r =>
      (run o t).mapError (Fault.shift (s.length + 1)) >>= fun r' => .ok (r ++ r') := by
  rcases run_balanced (o := o) hs with ⟨fault, hfault⟩ | ⟨p, found, hl, hrun⟩
  · have hs' := hfault []
    rw [List.append_nil] at hs'
    rw [hfault, hs']
    rfl
  · have hend : run o s = heed o (p.objectionAtEnd .top) >>= fun _ => .ok (found ++ p.emit) := by
      have hrest := hrun []
      rw [List.append_nil] at hrest
      exact hrest.trans (runFrom_nil hl)
    -- the end of the first text is fine, and so is the comma in its place
    have hfine : heed o (p.objectionAtEnd .top) = .ok () ∧
        heed o (p.objection .top s.length ',') = .ok () := by
      rcases h with ho | ⟨hne, -, r, hr⟩
      · exact ⟨heed_lenient ho _, heed_lenient ho _⟩
      · rw [hend, check_eq_ok] at hr
        refine ⟨hr.1, heed_eq_ok.2 ((heed_eq_ok.1 hr.1).imp_right fun hnone => ?_)⟩
        have hlast : p.last.isSome := by
          have hsome : s.getLast?.isSome := by simpa using hne
          rw [(hl rfl).1] at hsome
          simpa using hsome
        exact objection_comma.2 ((objectionAtEnd_none.1 hnone).2 hlast)
    have ht : o.mode = .lenient ∨ t ≠ [] := h.imp_right fun h => h.2.1
    have hwalk : (ofPending [] (.nextSibling .top s.length) (found ++ p.emit)).runFrom o
        (s.length + 1) (some ',') t = walk o .top t (s.length + 1) (.nextSibling .top s.length) >>=
          fun w => .ok (found ++ p.emit ++ w.selections) :=
      runFrom_eq_walk .top t (s.length + 1) _ [] _ (some ',') rfl (agrees_of_last rfl)
    have hsecond : run o t = walk o .top t 0 (.start .top) >>= fun w => .ok w.selections :=
      runFrom_eq_walk .top t 0 (.start .top) [] [] none rfl agrees_start
    rw [hrun, runFrom_comma, hend, hsecond]
    show heed o (p.objection .top s.length ',') >>= (fun _ =>
      (ofPending [] (.nextSibling .top s.length) (found ++ p.emit)).runFrom o (s.length + 1)
        (some ',') t) = _
    rw [hfine.1, hfine.2, hwalk, walk_nextSibling s.length ht]
    cases walk o .top t 0 (.start .top) <;> rfl

end Machine

end Comma

/-- **A comma joins specifications.** Let every group of the first be closed. A lenient reader, and
a strict one that accepts the first and has something to read on both sides, gives the selections of
the first and then those of the second. A fault of the first is that of the whole, and so is one of
the second, as many places later as characters stand before it. A lenient reader finds no fault in
the second but a trajectory that is too long. -/
theorem parse_comma (o : Options) {s t : String} (hs : Balanced (Text.compact s))
    (h : o.mode = .lenient ∨
      (Text.compact s ≠ [] ∧ Text.compact t ≠ [] ∧ ∃ ks, KeySpec.parse o s = .ok ks)) :
    (KeySpec.parse o (s ++ "," ++ t) = do
      let first ← KeySpec.parse o s
      let second ← (KeySpec.parse o t).mapError (Fault.shift ((Text.compact s).length + 1))
      return ⟨first.selections ++ second.selections⟩) ∧
    (o.mode = .lenient → ∀ fault, KeySpec.parse o t = .error fault →
      ∃ depth limit i, fault = .depthExceeded depth limit i ∧
        fault.shift ((Text.compact s).length + 1) =
          .depthExceeded depth limit (i + ((Text.compact s).length + 1))) := by
  constructor
  · have hcompact : Text.compact (s ++ "," ++ t) = Text.compact s ++ ',' :: Text.compact t := by
      rw [Text.compact_append, Text.compact_append, List.append_assoc]
      rfl
    have h' : o.mode = .lenient ∨ (Text.compact s ≠ [] ∧ Text.compact t ≠ [] ∧
        ∃ r, Machine.run o (Text.compact s) = .ok r) :=
      h.imp_right fun ⟨hs, ht, ks, hks⟩ => ⟨hs, ht, ks.selections, parse_eq_ok_iff_run.1 hks⟩
    rw [parse_eq_run, parse_eq_run, parse_eq_run, hcompact, Machine.run_comma hs h']
    cases Machine.run o (Text.compact s) with
    | error fault => rfl
    | ok r => cases Machine.run o (Text.compact t) <;> rfl
  · intro ho fault hfault
    have hmode : o.withMode .lenient = o := by
      rw [← ho]
      rfl
    rw [← hmode] at hfault
    obtain ⟨depth, i, rfl⟩ := ((strictRelation o).parse t).fault_eq fault hfault
    exact ⟨depth, o.depthLimit, i, rfl, rfl⟩

/-- Behind `a[b]c.,` a lenient reader with a limit of two finds the third key of `d.e.f.g` seven
places later, and behind `a[b,c],` a strict reader so finds the open group of `d[e`. -/
theorem parse_comma_of_faults_behind :
    (Balanced (Text.compact "a[b]c.") ∧ (⟨.lenient, 2⟩ : Options).mode = .lenient ∧
      KeySpec.parse ⟨.lenient, 2⟩ "a[b]c." = .ok ⟨[⟨["a"], "b"⟩]⟩ ∧
      KeySpec.parse ⟨.lenient, 2⟩ "d.e.f.g" = .error (.depthExceeded 3 2 5) ∧
      KeySpec.parse ⟨.lenient, 2⟩ ("a[b]c." ++ "," ++ "d.e.f.g") =
        .error (.depthExceeded 3 2 12) ∧
      ∃ depth limit i, (.depthExceeded 3 2 5 : Fault) = .depthExceeded depth limit i ∧
        (.depthExceeded 3 2 12 : Fault) = .depthExceeded depth limit (i + (6 + 1))) ∧
    (Balanced (Text.compact "a[b,c]") ∧
      (Text.compact "a[b,c]" ≠ [] ∧ Text.compact "d[e" ≠ [] ∧
        ∃ ks, KeySpec.parse .strict "a[b,c]" = .ok ks) ∧
      KeySpec.parse .strict "d[e" = .error (.unclosedGroup 1) ∧
      KeySpec.parse .strict ("a[b,c]" ++ "," ++ "d[e") = .error (.unclosedGroup 8)) := by
  have letter : ∀ c, c ≠ '[' → c ≠ ']' → Balanced [c] := fun c => balanced_singleton
  have hs : Balanced (Text.compact "a[b]c.") :=
    (letter 'a' (by decide) (by decide)).append
      ((letter 'b' (by decide) (by decide)).bracketed.append
        ((letter 'c' (by decide) (by decide)).append (letter '.' (by decide) (by decide))))
  have hs' : Balanced (Text.compact "a[b,c]") :=
    (letter 'a' (by decide) (by decide)).append ((letter 'b' (by decide) (by decide)).append
      ((letter ',' (by decide) (by decide)).append (letter 'c' (by decide) (by decide)))).bracketed
  have hfirst : KeySpec.parse ⟨.lenient, 2⟩ "a[b]c." = .ok ⟨[⟨["a"], "b"⟩]⟩ := by
    rw [parse_eq_run]
    rfl
  have hsecond : KeySpec.parse ⟨.lenient, 2⟩ "d.e.f.g" = .error (.depthExceeded 3 2 5) := by
    rw [parse_eq_run]
    rfl
  have hfirst' : KeySpec.parse .strict "a[b,c]" = .ok ⟨[⟨["a"], "b"⟩, ⟨["a"], "c"⟩]⟩ := by
    rw [parse_eq_run]
    rfl
  have hsecond' : KeySpec.parse .strict "d[e" = .error (.unclosedGroup 1) := by
    rw [parse_eq_run]
    rfl
  have hne : Text.compact "a[b,c]" ≠ [] ∧ Text.compact "d[e" ≠ [] ∧
      ∃ ks, KeySpec.parse .strict "a[b,c]" = .ok ks := ⟨by decide, by decide, _, hfirst'⟩
  refine ⟨⟨hs, rfl, hfirst, hsecond, (parse_comma ⟨.lenient, 2⟩ hs (.inl rfl)).1.trans ?_,
      (parse_comma ⟨.lenient, 2⟩ hs (.inl rfl)).2 rfl _ hsecond⟩,
    ⟨hs', hne, hsecond', (parse_comma .strict hs' (.inr hne)).1.trans ?_⟩⟩
  · rw [hfirst, hsecond]
    rfl
  · rw [hfirst', hsecond']
    rfl

end Excerpt.Spec
