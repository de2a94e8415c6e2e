import Excerpt.Spec.Key

/-!
# Brackets and runs of a specification

* `readPart` — the characters before the first `]` that closes nothing;
* `openGroups` — how many groups are open behind some characters;
* `Balanced` — every group is closed, and nothing else is;
* `closing?` — how many characters there are up to the first `]` that closes nothing;
* `Run`, `runs` — the longest pieces without delimiters, each with the delimiter behind it.
-/

namespace Excerpt.Spec

/-- How many groups are open behind a character, if `depth` are open before it. -/
def nextDepth (depth : Nat) (c : Char) : Nat :=
  if c = '[' then depth + 1 else if c = ']' then depth - 1 else depth

/-- The characters before the first `]` that closes nothing, where `depth` groups are open. -/
def readPartFrom (depth : Nat) : List Char → List Char
  | [] => []
  | c :: cs =>
    if c = ']' ∧ depth = 0 then [] else c :: readPartFrom (nextDepth depth c) cs

/-- The characters before the first `]` that closes nothing. -/
def readPart (cs : List Char) : List Char := readPartFrom 0 cs

/-- How many groups are open behind characters of which each `]` closes a group. -/
def openGroups (cs : List Char) : Nat := cs.count '[' - cs.count ']'

/-- No beginning of the characters has more closing than opening brackets, and all of them have
equally many. -/
def Balanced (cs : List Char) : Prop :=
  (∀ n, (cs.take n).count ']' ≤ (cs.take n).count '[') ∧ cs.count ']' = cs.count '['

/-- The number of characters up to and with the first `]` that closes nothing, where `depth` groups
are open, if there is one. -/
def closing? (depth : Nat) : List Char → Option Nat
  | [] => none
  | c :: cs =>
    if c = ']' ∧ depth = 0 then some 1 else (closing? (nextDepth depth c) cs).map (· + 1)

/-! ### Runs -/

/-- A longest piece of characters without delimiters. -/
structure Run where
  /-- Its characters, of which there is at least one. -/
  text : String
  /-- The delimiter behind it; the end of the text where there is none. -/
  follower : Option Char
  deriving DecidableEq, Repr

/-- The run of characters that have been read, if there are any. -/
def Run.ofRead (read : List Char) (follower : Option Char) : List Run :=
  if read.isEmpty then [] else [⟨String.ofList read, follower⟩]

/-- The runs of characters behind those of an unfinished run. -/
def runsFrom (read : List Char) : List Char → List Run
  | [] => Run.ofRead read none
  | c :: cs =>
    if isDelimiter c then Run.ofRead read (some c) ++ runsFrom [] cs else runsFrom (read ++ [c]) cs

def runs (cs : List Char) : List Run := runsFrom [] cs

/-- Whether a run ends a selection: a comma, a closing bracket or the end of the text follows. -/
def Run.isTerminal (r : Run) : Bool :=
  r.follower = none || r.follower = some ',' || r.follower = some ']'

/-- A bracket changes how many groups are open by one. -/
theorem nextDepth_add {depth : Nat} {c : Char} (hc : ¬(c = ']' ∧ depth = 0)) :
    nextDepth depth c + [c].count ']' = depth + [c].count '[' := by
  unfold nextDepth
  by_cases hopen : c = '['
  · subst hopen
    simp
  · by_cases hclose : c = ']'
    · have hpos : depth ≠ 0 := fun h => hc ⟨hclose, h⟩
      subst hclose
      simp
      omega
    · simp [hopen, hclose]

/-- There is a `]` that closes nothing just where reading ends before the end of the text. -/
theorem closing?_eq_some_iff {depth n : Nat} {cs : List Char} :
    closing? depth cs = some n ↔
      (readPartFrom depth cs).length + 1 = n ∧ (readPartFrom depth cs).length < cs.length := by
  induction cs generalizing depth n with
  | nil => simp [closing?, readPartFrom]
  | cons c cs ih =>
    rw [closing?, readPartFrom]
    split
    · simp [eq_comm]
    · cases n with
      | zero => simp
      | succ n => simp [ih]

end Excerpt.Spec
