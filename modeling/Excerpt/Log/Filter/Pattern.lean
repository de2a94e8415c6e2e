import Excerpt.Log.Filter.Pattern.CharSet
import Excerpt.Text.Alphanumeric

/-!
# Patterns

Patterns of field values are regular expressions: symbols and bracketed sets one behind another,
repeated, in groups, and with a choice between branches. They have no look-around, no references to
groups, and no repetition by numbers.

* `groupHead?` — what stands behind the sign that opens a special group;
* `Reading`, `Reading.step?` — reading a pattern part by part;
* `isWellFormed` — whether characters are a pattern that has a meaning.

A pattern is as high as its parts are nested: a repetition, a group and a bracketed set stand one
above what they hold, and so do parts or branches that stand side by side.
-/

namespace Excerpt.Log.Pattern

open Text

def maxHeight : Nat := 250

/-! ### Groups -/

/-- What stands behind the sign that opens a special group. -/
inductive GroupHead where
  | named (name : List Char)
  | flagged (flags : List Char)
  /-- Flags alone, for what follows. -/
  | flags (flags : List Char)
  deriving DecidableEq, Repr

def isGroupName : List Char → Bool
  | [] => false
  | c :: cs =>
    (c = '_' || isAlphabetic c) &&
      cs.all fun c => isAlphanumeric c || ['_', '.', '[', ']'].contains c

/-- What stands behind the sign that opens a special group, and the rest. -/
def groupHead? (cs : List Char) : Option (GroupHead × List Char) :=
  let name? (cs : List Char) : Option (GroupHead × List Char) :=
    let name := cs.takeWhile (· ≠ '>')
    match cs.drop name.length with
    | '>' :: rest => if isGroupName name then some (.named name, rest) else none
    | _ => none
  match cs with
  | 'P' :: '<' :: cs | '<' :: cs => name? cs
  | cs =>
    let flags := cs.takeWhile fun c => c ≠ ':' && c ≠ ')'
    match cs.drop flags.length with
    | ':' :: rest => if Flags.areFlags flags then some (.flagged flags, rest) else none
    | ')' :: rest =>
      if Flags.areFlags flags && !flags.isEmpty then some (.flags flags, rest) else none
    | _ => none

/-- What has been read of a group, or of what stands outside of all groups. -/
structure Group where
  /-- The heights of the finished branches, last first. -/
  branches : List Nat := []
  /-- The heights of the parts of this branch, last first; `none` for flags alone. -/
  parts : List (Option Nat) := []
  deriving DecidableEq, Repr

namespace Group

def add (g : Group) (h : Nat) : Group := { g with parts := some h :: g.parts }

def addFlags (g : Group) : Group := { g with parts := none :: g.parts }

def endBranch (g : Group) : Group :=
  { branches := joined (g.parts.map fun h => h.getD 0) :: g.branches, parts := [] }

/-- The height of what a group holds. -/
def height (g : Group) : Nat := joined g.endBranch.branches

/-- Repeat the last part. Nothing and flags cannot be repeated. -/
def repeat? (g : Group) : Option Group :=
  match g.parts with
  | some h :: parts => some { g with parts := some (h + 1) :: parts }
  | _ => none

end Group

/-! ### Patterns -/

structure Reading where
  flags : Flags := {}
  group : Group := {}
  /-- The groups around it, innermost first, each with the flags for what follows in it. -/
  outer : List (Flags × Group) := []
  names : List (List Char) := []
  deriving DecidableEq, Repr

namespace Reading

def add (r : Reading) (h : Nat) : Reading := { r with group := r.group.add h }

def openGroup (r : Reading) (f : Flags) : Reading :=
  { r with flags := f, group := {}, outer := (r.flags, r.group) :: r.outer }

/-- Read what stands behind an opening parenthesis. The names of groups are distinct. -/
def opened? (r : Reading) (cs : List Char) : Option (Reading × List Char) :=
  match r.flags.skip cs with
  | '?' :: cs =>
    (groupHead? cs).bind fun (head, rest) =>
      match head with
      | .named name =>
        if r.names.contains name then none
        else some ({ r.openGroup r.flags with names := name :: r.names }, rest)
      | .flagged flags => some (r.openGroup (r.flags.change flags), rest)
      | .flags flags =>
        some ({ r with flags := r.flags.change flags, group := r.group.addFlags }, rest)
  | cs => some (r.openGroup r.flags, cs)

/-- Close the innermost group. Its flags end with it. -/
def closed? (r : Reading) : Option Reading :=
  match r.outer with
  | [] => none
  | (flags, group) :: outer =>
    some { r with flags, group := group.add (r.group.height + 1), outer }

/-- The rest behind the sign that makes a repetition short. -/
def skipShort : List Char → List Char
  | '?' :: cs => cs
  | cs => cs

/-- Read the first part of `c :: cs`. An opening brace would begin a repetition by numbers. -/
def step? (r : Reading) (c : Char) (cs : List Char) : Option (Reading × List Char) :=
  match c with
  | '(' => r.opened? cs
  | ')' => r.closed?.map fun r => (r, cs)
  | '|' => some ({ r with group := r.group.endBranch }, cs)
  | '[' => (charSet? r.flags cs).map fun (h, rest) => (r.add h, rest)
  | '?' | '*' | '+' =>
    r.group.repeat?.map fun group => ({ r with group }, skipShort cs)
  | '\x7b' => none
  | c => (symbol? r.flags (c :: cs)).map fun (_, rest) => (r.add 0, rest)

/-- Whether characters go on as a pattern of which `r` has been read. -/
def goesOn : (fuel : Nat) → Reading → List Char → Bool
  | 0, _, _ => false
  | fuel + 1, r, cs =>
    match r.flags.skip cs with
    | [] => r.outer.isEmpty && r.group.height ≤ maxHeight
    | c :: cs => (r.step? c cs).any fun (r, rest) => goesOn fuel r rest

end Reading

/-- Whether characters are a pattern that has a meaning. -/
def isWellFormed (cs : List Char) : Bool := Reading.goesOn (cs.length + 1) {} cs

end Excerpt.Log.Pattern
