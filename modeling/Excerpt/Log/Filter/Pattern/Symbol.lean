import Excerpt.Text.Blank
import Excerpt.Text.Numeral

/-!
# Symbols of a pattern

A symbol is the smallest part of a pattern: a character, a set of characters that has a name, or a
place in a text.

* `Flags`, `Flags.change` — how symbols are read, and what a group of flags changes about it;
* `Flags.admits` — whether a symbol has a meaning;
* `symbol?`, `setSymbol?` — the symbol that characters begin with, outside and inside of a bracketed
  set, and the rest.

There are no tables of Unicode's properties. So sets of digits, blanks and letters, the edges of
words, and letters without regard to case are known among the characters of ASCII alone, which is
what switching off `u` asks for. On the other hand every match must be a text, so what could match
a byte beyond ASCII without `u` has no meaning either.
-/

namespace Excerpt.Log.Pattern

open Text Numeral

/-! ### Flags -/

structure Flags where
  /-- Letters match without regard to case, flag `i`. -/
  caseless : Bool := false
  /-- All of Unicode counts, flag `u`. -/
  unicode : Bool := true
  /-- Blanks and comments are left out, flag `x`. -/
  spaced : Bool := false
  deriving DecidableEq, Repr

namespace Flags

/-- Whether characters may be flags: none comes twice, and a dash stands before at least one. -/
def areFlags (cs : List Char) : Bool :=
  cs.all (fun c => "imsUuRx-".toList.contains c) && cs.eraseDups.length = cs.length &&
    cs.getLast? ≠ some '-'

/-- Switch on the flags of `cs`, and switch off those behind a dash. -/
def change (f : Flags) (cs : List Char) : Flags :=
  let turned (c : Char) (was : Bool) : Bool :=
    if cs.contains c then (cs.takeWhile (· ≠ '-')).contains c else was
  { caseless := turned 'i' f.caseless
    unicode := turned 'u' f.unicode
    spaced := turned 'x' f.spaced }

/-- The rest behind blanks and comments. A comment goes from its sign to the end of a line. -/
def skipSpaces : (inComment : Bool) → List Char → List Char
  | _, [] => []
  | true, c :: cs => skipSpaces (c ≠ '\n') cs
  | false, c :: cs =>
    if isBlank c then skipSpaces false cs
    else if c = '#' then skipSpaces true cs
    else c :: cs

/-- The rest behind what is left out. -/
def skip (f : Flags) (cs : List Char) : List Char := if f.spaced then skipSpaces false cs else cs

end Flags

/-! ### Symbols -/

inductive Symbol where
  | char (c : Char)
  | byte (c : Char)
  /-- Any character but the end of a line. -/
  | any
  /-- Digits, blanks, or what words consist of. -/
  | named
  /-- The start or the end of a line or of the text. -/
  | border
  /-- An edge of a word, or a place that is none. -/
  | wordEdge
  deriving DecidableEq, Repr

namespace Symbol

def char? : Symbol → Option Char
  | .char c | .byte c => some c
  | _ => none

/-- Whether a symbol may be part of a bracketed set, which without `u` is a set of bytes. -/
def isMember (f : Flags) : Symbol → Bool
  | .char c => f.unicode || c.toNat < 128
  | .byte _ | .named => true
  | .any | .border | .wordEdge => false

end Symbol

def Flags.admits (f : Flags) : Symbol → Bool
  | .char _ => !(f.caseless && f.unicode)
  | .byte c => if f.unicode then !f.caseless else c.toNat < 128
  | .any => f.unicode
  | .named | .wordEdge => !f.unicode
  | .border => true

/-! ### Reading -/

/-- The first `n` hexadecimal digits, and the rest. -/
def hexDigits? (f : Flags) : (n : Nat) → List Char → Option (List Char × List Char)
  | 0, cs => some ([], cs)
  | n + 1, cs =>
    match f.skip cs with
    | c :: cs =>
      if (digitValue? 16 c).isSome then
        (hexDigits? f n cs).map fun (digits, rest) => (c :: digits, rest)
      else none
    | [] => none

/-- The character of `n` hexadecimal digits, and the rest. -/
def hexChar? (f : Flags) (n : Nat) (cs : List Char) : Option (Char × List Char) :=
  (hexDigits? f n cs).bind fun (digits, rest) =>
    (ofDigits? 16 digits).bind fun v =>
      if v.isValidChar then some (Char.ofNat v, rest) else none

/-- The control character that a letter behind a backslash stands for. -/
def control? : Char → Option Char
  | 'a' => some '\x07'
  | 't' => some '\x09'
  | 'n' => some '\x0a'
  | 'v' => some '\x0b'
  | 'f' => some '\x0c'
  | 'r' => some '\x0d'
  | _ => none

/-- Whether a character is a sign: in ASCII, and no letter or digit. The signs of order are left
out, for behind a backslash they are edges of words. -/
def isSign (c : Char) : Bool := c.toNat < 128 && !c.isAlphanum && c ≠ '<' && c ≠ '>'

/-- What the characters behind a backslash stand for, and the rest. The complements of the named
sets, and sets by property, are not to be had under any flags. -/
def escape? (f : Flags) : List Char → Option (Symbol × List Char)
  | [] => none
  | 'x' :: cs => (hexChar? f 2 cs).map fun (c, rest) => (.byte c, rest)
  | 'u' :: cs => (hexChar? f 4 cs).map fun (c, rest) => (.char c, rest)
  | 'U' :: cs => (hexChar? f 8 cs).map fun (c, rest) => (.char c, rest)
  | c :: cs =>
    if isSign c then some (.char c, cs)
    else if ['d', 's', 'w'].contains c then some (.named, cs)
    else if ['A', 'z'].contains c then some (.border, cs)
    else if ['b', 'B', '<', '>'].contains c then some (.wordEdge, cs)
    else (control? c).map fun c => (.char c, cs)

/-- The symbol that characters begin with, and the rest. -/
def symbol? (f : Flags) (cs : List Char) : Option (Symbol × List Char) :=
  let read? : Option (Symbol × List Char) := match cs with
    | [] => none
    | '\\' :: cs => escape? f cs
    | '.' :: cs => some (.any, cs)
    | '^' :: cs | '$' :: cs => some (.border, cs)
    | c :: cs => some (.char c, cs)
  read?.filter fun s => f.admits s.1

/-- The symbol that characters begin with in a bracketed set, and the rest. Only a backslash has a
meaning of its own there. -/
def setSymbol? (f : Flags) (cs : List Char) : Option (Symbol × List Char) :=
  let read? : Option (Symbol × List Char) := match cs with
    | [] => none
    | '\\' :: cs => escape? f cs
    | c :: cs => some (.char c, cs)
  read?.filter fun s => s.1.isMember f && f.admits s.1

end Excerpt.Log.Pattern
