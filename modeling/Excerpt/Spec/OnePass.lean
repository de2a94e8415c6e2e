import Excerpt.Options
import Excerpt.Selection
import Excerpt.Spec.Fault

/-!
# Reading a specification in one pass

* `Machine` — the state of a reader that sees every character once: the open groups as a stack, and
  what has been read since the last comma;
* `Machine.step` — the rule for one character;
* `Machine.run` — the selections of a list of characters.
-/

namespace Excerpt.Spec

/-- An open group: the keys that its paths start with, and the place of its bracket. -/
structure OpenGroup where
  /-- The keys that every path of the group starts with. -/
  keys : List String
  /-- The place of the bracket that opened the group. -/
  place : Nat
  deriving DecidableEq, Repr

structure Machine where
  /-- The open groups, the innermost first. -/
  stack : List OpenGroup := []
  /-- The keys above the one that is being read. -/
  trajectory : List String := []
  key : String := ""
  /-- Whether a group has been closed since the last comma. -/
  afterGroup : Bool := false
  selections : List Selection := []
  deriving DecidableEq, Repr

namespace Machine

/-- The keys that a sibling starts from: those of the innermost open group. -/
def base (m : Machine) : List String :=
  match m.stack with
  | [] => []
  | g :: _ => g.keys

/-- The selections when the key that is being read is complete; an empty key adds none. -/
def emitted (m : Machine) : List Selection :=
  if m.key = "" then m.selections else m.selections ++ [⟨m.trajectory, m.key⟩]

/-- What a strict reader asks for at place `i`. -/
def require (o : Options) (condition : Bool) (fault : Fault) : Except Fault Unit :=
  if o.isStrict && !condition then .error fault else .ok ()

/-- What a strict reader asks for before a character that ends a key. -/
def requireKey (o : Options) (m : Machine) (i : Nat) (c : Char) : Except Fault Unit :=
  require o (m.key ≠ "" || m.afterGroup) (.emptyKey i c)

/-- What a strict reader asks for before a character that may not follow a group. -/
def requireOpen (o : Options) (m : Machine) (i : Nat) (c : Char) : Except Fault Unit :=
  require o (!m.afterGroup) (.unexpectedCharacter i c)

/-- What every reader asks for behind a dot or a bracket: not too many keys. -/
def requireDepth (o : Options) (depth i : Nat) : Except Fault Unit :=
  if depth ≤ o.depthLimit then .ok () else .error (.depthExceeded depth o.depthLimit i)

/-- The rule for the character `c` at place `i`; the pass stops, with the selections so far, at a
closing bracket when no group is open. -/
def step (o : Options) (m : Machine) (i : Nat) (c : Char) :
    Except Fault (Machine ⊕ List Selection) :=
  match c with
  | ',' => do
    m.requireKey o i c
    return .inl { m with
      trajectory := m.base, key := "", afterGroup := false, selections := m.emitted }
  | '.' => do
    m.requireOpen o i c
    m.requireKey o i c
    let trajectory := m.trajectory ++ [m.key]
    requireDepth o trajectory.length i
    return .inl { m with trajectory, key := "" }
  | '[' => do
    m.requireOpen o i c
    m.requireKey o i c
    let keys := m.trajectory ++ [m.key]
    requireDepth o keys.length i
    return .inl { m with
      stack := ⟨keys, i⟩ :: m.stack, trajectory := keys, key := "", afterGroup := false }
  | ']' =>
    match m.stack with
    | [] => do
      require o false (.unexpectedClosingBracket i)
      return .inr m.emitted
    | _ :: stack => do
      m.requireKey o i c
      return .inl
        { stack, trajectory := [], key := "", afterGroup := true, selections := m.emitted }
  | _ => do
    m.requireOpen o i c
    return .inl { m with key := m.key.push c }

/-- The rule for the end of the text at place `i`, behind the character `last`, if there is one. -/
def finish (o : Options) (m : Machine) (i : Nat) (last : Option Char) :
    Except Fault (List Selection) :=
  match m.stack, last with
  | g :: _, _ => do
    require o false (.unclosedGroup g.place)
    return m.emitted
  | [], some c => do
    m.requireKey o (i - 1) c
    return m.emitted
  | [], none => .ok m.emitted

/-- The selections of the characters from place `i` on, the first of which stands behind `last`. -/
def runFrom (o : Options) (m : Machine) (i : Nat) (last : Option Char) :
    List Char → Except Fault (List Selection)
  | [] => m.finish o i last
  | c :: cs =>
    match m.step o i c with
    | .error fault => .error fault
    | .ok (.inr selections) => .ok selections
    | .ok (.inl m) => m.runFrom o (i + 1) (some c) cs

def run (o : Options) (cs : List Char) : Except Fault (List Selection) :=
  ({} : Machine).runFrom o 0 none cs

end Machine

end Excerpt.Spec
