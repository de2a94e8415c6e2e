import Excerpt.Options
import Excerpt.Selection
import Excerpt.Spec.Fault
import Excerpt.Text.Blank

/-!
# Walking a specification

A specification lists keys: `,` separates siblings, `.` descends, `[` opens a group below the key
before it and `]` closes the group.

* `Pending` — what one level has read since its last `,`;
* `Pending.objection`, `Pending.objectionAtEnd` — what a strict reader has against the next
  character, and against the end of the text;
* `walk` — the recursive reader: a group is walked by a nested call, which reports how many
  characters it has consumed, so that the outer level goes on behind the group;
* `KeySpec.parse` — the selections of a specification.
-/

namespace Excerpt.Spec

/-- A level of nesting: the keys that its paths start with, and the place of the `[` that opened
it, `none` outside every group. -/
structure Level where
  /-- The keys that every path of the level starts with. -/
  inherited : List String
  /-- The place of the bracket that opened the level. -/
  openedAt : Option Nat
  deriving DecidableEq, Repr

def Level.top : Level := ⟨[], none⟩

/-- What a level has read since its last comma. -/
structure Pending where
  /-- The keys above the one that is being read. -/
  trajectory : List String
  key : String := ""
  /-- Whether a group has been closed since the last comma. -/
  afterGroup : Bool := false
  /-- The last character that the level has read, and its place. -/
  last : Option (Nat × Char) := none
  deriving DecidableEq, Repr

namespace Pending

/-- The state of a level before its first character. -/
def start (level : Level) : Pending := { trajectory := level.inherited }

/-- The selection of a key that is complete: an empty key selects nothing. -/
def emit (p : Pending) : List Selection :=
  if p.key.isEmpty then [] else [⟨p.trajectory, p.key⟩]

/-- Whether neither a key nor a group stands since the last separator. -/
def isBare (p : Pending) : Bool := p.key.isEmpty && !p.afterGroup

/-- The state behind a comma: the next sibling starts from the keys of the level. -/
def nextSibling (level : Level) (i : Nat) : Pending :=
  { trajectory := level.inherited, last := some (i, ',') }

/-- The state behind a dot: the key becomes a step. -/
def descend (p : Pending) (i : Nat) : Pending :=
  { p with trajectory := p.trajectory ++ [p.key], key := "", last := some (i, '.') }

/-- The keys that the paths of a group start with. -/
def groupKeys (p : Pending) : List String := p.trajectory ++ [p.key]

/-- The state behind a group, whose keys have gone into the group. -/
def behindGroup (i : Nat) : Pending :=
  { trajectory := [], afterGroup := true, last := some (i, ']') }

def extend (p : Pending) (i : Nat) (c : Char) : Pending :=
  { p with key := p.key.push c, last := some (i, c) }

/-- What a strict reader has against the character `c` at place `i`. -/
def objection (p : Pending) (level : Level) (i : Nat) (c : Char) : Option Fault :=
  match c with
  | ',' => if p.isBare then some (.emptyKey i c) else none
  | ']' =>
    if level.openedAt.isNone then some (.unexpectedClosingBracket i)
    else if p.isBare then some (.emptyKey i c)
    else none
  | '[' | '.' =>
    if p.afterGroup then some (.unexpectedCharacter i c)
    else if p.key.isEmpty then some (.emptyKey i c)
    else none
  | _ => if p.afterGroup then some (.unexpectedCharacter i c) else none

/-- What a strict reader has against the end of the text: an open group, or a separator with no
key behind it. A level that has read nothing is fine. -/
def objectionAtEnd (p : Pending) (level : Level) : Option Fault :=
  match level.openedAt, p.last with
  | some q, _ => some (.unclosedGroup q)
  | none, some (i, c) => if p.isBare then some (.emptyKey i c) else none
  | none, none => none

end Pending

/-- Raise an objection of the strict reader; the lenient one passes over it. -/
def heed (o : Options) (objection : Option Fault) : Except Fault Unit :=
  match o.mode, objection with
  | .strict, some fault => .error fault
  | _, _ => .ok ()

/-- Refuse a trajectory of `depth` keys that has been completed at place `i`. -/
def checkDepth (o : Options) (depth i : Nat) : Except Fault Unit :=
  if depth > o.depthLimit then .error (.depthExceeded depth o.depthLimit i) else .ok ()

structure Walk where
  /-- The selections of the level and of the groups in it, in order. -/
  selections : List Selection
  /-- The number of places read, the end of the text counted as one. -/
  consumed : Nat
  deriving DecidableEq, Repr

/-- Walk the characters of one level, the first of which stands at place `i`. The walk ends behind
the `]` that closes the level, or at the end of the text. -/
def walk (o : Options) (level : Level) : List Char → Nat → Pending → Except Fault Walk
  | [], _, p => do
    heed o (p.objectionAtEnd level)
    return ⟨p.emit, 1⟩
  | c :: cs, i, p => do
    heed o (p.objection level i c)
    match c with
    | ',' =>
      let tail ← walk o level cs (i + 1) (.nextSibling level i)
      return ⟨p.emit ++ tail.selections, tail.consumed + 1⟩
    | ']' => return ⟨p.emit, 1⟩
    | '[' =>
      checkDepth o p.groupKeys.length i
      let inner : Level := ⟨p.groupKeys, some i⟩
      let nested ← walk o inner cs (i + 1) (.start inner)
      let tail ← walk o level (cs.drop nested.consumed) (i + nested.consumed + 1)
        (.behindGroup (i + nested.consumed))
      return ⟨nested.selections ++ tail.selections, tail.consumed + nested.consumed + 1⟩
    | '.' =>
      checkDepth o (p.descend i).trajectory.length i
      let tail ← walk o level cs (i + 1) (p.descend i)
      return ⟨tail.selections, tail.consumed + 1⟩
    | _ =>
      let tail ← walk o level cs (i + 1) (p.extend i c)
      return ⟨tail.selections, tail.consumed + 1⟩
termination_by cs => cs.length
decreasing_by all_goals simp only [List.length_cons, List.length_drop]; omega

end Excerpt.Spec

namespace Excerpt.KeySpec

/-- The selections of a specification, read without its blanks. -/
def parse (o : Options) (text : String) : Except Spec.Fault KeySpec := do
  let walk ← Spec.walk o .top (Text.compact text) 0 (.start .top)
  return ⟨walk.selections⟩

end Excerpt.KeySpec
