import Excerpt.Log.Filter.Pattern.Symbol

/-!
# Bracketed sets of characters

Between square brackets stand characters, ranges, named sets and further brackets, one behind
another or joined by the signs of intersection, difference and symmetric difference.

* `joined` — the height of parts that stand side by side;
* `Bracket` — what has been read of a bracketed set;
* `member?` — the rest behind a character or a range;
* `charSet?` — the height of a bracketed set, and the rest.
-/

namespace Excerpt.Log.Pattern

/-- The height of parts of given heights that stand side by side. A part alone stands for itself. -/
def joined : List Nat → Nat
  | [] => 0
  | [h] => h
  | hs => hs.foldl max 0 + 1

structure Bracket where
  /-- Whether only dashes have been read, which stand for themselves. -/
  leading : Bool := true
  /-- The height of what stands before the last sign that joins. -/
  left : Option Nat := none
  /-- The heights of the members behind it. -/
  members : List Nat := []
  deriving DecidableEq, Repr

namespace Bracket

def add (b : Bracket) (h : Nat) : Bracket := { b with leading := false, members := h :: b.members }

def height (b : Bracket) : Nat :=
  match b.left with
  | none => joined b.members
  | some left => max left (joined b.members) + 1

/-- Read a sign that joins what has been read with what follows. -/
def join (b : Bracket) : Bracket := { leading := false, left := some b.height, members := [] }

/-- Whether a character stands for itself because of its place: dashes at the start, and a closing
bracket before anything else. -/
def isPlain (b : Bracket) (c : Char) : Bool :=
  b.leading && (c = '-' || (c = ']' && b.members.isEmpty))

/-- Add a character that stands for itself because of its place. -/
def addPlain (b : Bracket) (c : Char) : Bracket := { b.add 0 with leading := c = '-' }

end Bracket

/-! ### Members -/

/-- The names of the sets that colons enclose. -/
def setNames : List String :=
  ["alnum", "alpha", "ascii", "blank", "cntrl", "digit", "graph", "lower", "print", "punct",
    "space", "upper", "word", "xdigit"]

/-- Whether a set that colons enclose stands behind an opening bracket: whether it is a complement,
and the rest. -/
def enclosed? (cs : List Char) : Option (Bool × List Char) :=
  let name? (cs : List Char) : Option (List Char) :=
    let name := cs.takeWhile (· ≠ ':')
    match cs.drop name.length with
    | ':' :: ']' :: rest => if setNames.contains (String.ofList name) then some rest else none
    | _ => none
  match cs with
  | ':' :: '^' :: cs => (name? cs).map fun rest => (true, rest)
  | ':' :: cs => (name? cs).map fun rest => (false, rest)
  | _ => none

/-- The first character that is not left out, where the sign of a comment is left out alone. -/
def peek? (f : Flags) (cs : List Char) : Option Char :=
  if f.spaced then
    match cs.dropWhile Text.isBlank with
    | '#' :: cs => (cs.dropWhile Text.isBlank).head?
    | cs => cs.head?
  else cs.head?

/-- The rest behind a character, a range or a set named by a letter. A dash before the end of the
bracket or before another dash makes no range, and the ends of a range are characters in order. -/
def member? (f : Flags) (cs : List Char) : Option (List Char) :=
  (setSymbol? f cs).bind fun (low, rest) =>
    match f.skip rest with
    | '-' :: rest =>
      if peek? f rest = some ']' || peek? f rest = some '-' then some ('-' :: rest)
      else
        (setSymbol? f (f.skip rest)).bind fun (high, rest) =>
          match low.char?, high.char? with
          | some a, some b => if a ≤ b then some rest else none
          | _, _ => none
    | rest => some rest

/-! ### Sets -/

/-- What stands behind an opening bracket. A complement goes beyond ASCII, so without `u` there is
none. -/
def opened? (f : Flags) (cs : List Char) : Option (List Char) :=
  match f.skip cs with
  | '^' :: cs => if f.unicode then some cs else none
  | cs => some cs

/-- The height of the outermost of open brackets, and the rest behind its end. -/
def bracketEnd? (f : Flags) :
    (fuel : Nat) → Bracket → (outer : List Bracket) → List Char → Option (Nat × List Char)
  | 0, _, _, _ => none
  | fuel + 1, b, outer, cs =>
    match f.skip cs with
    | [] => none
    | c :: cs =>
      if b.isPlain c then
        if f.admits (.char c) then bracketEnd? f fuel (b.addPlain c) outer cs else none
      else
        match c, cs with
        | '[', cs =>
          match enclosed? cs with
          | some (complement, rest) =>
            if (if f.unicode then f.caseless else complement) then none
            else bracketEnd? f fuel (b.add 0) outer rest
          | none => (opened? f cs).bind (bracketEnd? f fuel {} (b :: outer))
        | ']', cs =>
          match outer with
          | [] => some (b.height + 1, cs)
          | o :: outer => bracketEnd? f fuel (o.add (b.height + 1)) outer cs
        | '&', '&' :: cs | '-', '-' :: cs | '~', '~' :: cs => bracketEnd? f fuel b.join outer cs
        | c, cs => (member? f (c :: cs)).bind (bracketEnd? f fuel (b.add 0) outer)

/-- The height of a bracketed set, whose opening bracket has been read, and the rest. -/
def charSet? (f : Flags) (cs : List Char) : Option (Nat × List Char) :=
  (opened? f cs).bind fun rest => bracketEnd? f (rest.length + 1) {} [] rest

end Excerpt.Log.Pattern
