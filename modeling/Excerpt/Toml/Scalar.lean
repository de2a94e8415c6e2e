import Excerpt.Binary64.Basic
import Excerpt.Toml.Lexis
import Excerpt.Toml.Value

/-!
# Numbers, dates and times of TOML

* `dateTime?` — a date, a time, or a date with a time and perhaps an offset;
* `float?` — a number with a fraction or an exponent, `inf` or `nan`;
* `integer?` — a decimal integer with an optional sign, or digits of base 16, 8 or 2;
* `scalar?` — the first of these that is there.
-/

namespace Excerpt.Toml

open Text.Numeral

/-! ### Dates and times -/

def number? (digits : List Char) (least greatest : Nat) : Option Nat :=
  (ofDigits? 10 digits).filter fun n => least ≤ n && n ≤ greatest

def daysOfMonth (year month : Nat) : Nat :=
  let leap := year % 4 = 0 ∧ (year % 100 ≠ 0 ∨ year % 400 = 0)
  if month = 2 then if leap then 29 else 28
  else if month = 4 ∨ month = 6 ∨ month = 9 ∨ month = 11 then 30
  else 31

def date? : List Char → Option (List Char)
  | y₁ :: y₂ :: y₃ :: y₄ :: '-' :: m₁ :: m₂ :: '-' :: d₁ :: d₂ :: cs => do
    let year ← number? [y₁, y₂, y₃, y₄] 0 9999
    let month ← number? [m₁, m₂] 1 12
    let _ ← number? [d₁, d₂] 1 (daysOfMonth year month)
    return cs
  | _ => none

/-- The rest behind a fraction of a second, if there is one. -/
def secondFraction (cs : List Char) : List Char :=
  match cs with
  | '.' :: d :: rest => if isDigit d then rest.dropWhile isDigit else cs
  | _ => cs

def time? : List Char → Option (List Char)
  | h₁ :: h₂ :: ':' :: m₁ :: m₂ :: ':' :: s₁ :: s₂ :: cs => do
    let _ ← number? [h₁, h₂] 0 23
    let _ ← number? [m₁, m₂] 0 59
    let _ ← number? [s₁, s₂] 0 60
    return secondFraction cs
  | _ => none

def offset? : List Char → Option (List Char)
  | 'Z' :: cs | 'z' :: cs => some cs
  | sign :: h₁ :: h₂ :: ':' :: m₁ :: m₂ :: cs => do
    if sign ≠ '+' ∧ sign ≠ '-' then none
    let _ ← number? [h₁, h₂] 0 23
    let _ ← number? [m₁, m₂] 0 59
    return cs
  | _ => none

/-- The rest behind a time and an offset that follow a date, if they do. -/
def timeOfDay (cs : List Char) : List Char :=
  match cs with
  | c :: rest =>
    if c = 'T' || c = 't' || c = ' ' then
      match time? rest with
      | some rest => (offset? rest).getD rest
      | none => cs
    else cs
  | [] => []

/-- The beginning of a text, given what follows it. -/
def before (cs rest : List Char) : String := String.ofList (cs.take (cs.length - rest.length))

def dateTime? : Scan Value := fun cs =>
  ((date? cs).map timeOfDay).or (time? cs) |>.map fun rest => (.datetime (before cs rest), rest)

/-! ### Numbers -/

/-- Digits, with single underscores between them; the underscores are left out. -/
def moreDigits (isDigit : Char → Bool) : List Char → List Char × List Char
  | '_' :: c :: cs =>
    if isDigit c then
      let (ds, rest) := moreDigits isDigit cs
      (c :: ds, rest)
    else ([], '_' :: c :: cs)
  | c :: cs =>
    if isDigit c then
      let (ds, rest) := moreDigits isDigit cs
      (c :: ds, rest)
    else ([], c :: cs)
  | [] => ([], [])

/-- At least one digit, with single underscores between digits. -/
def digits? (isDigit : Char → Bool) : Scan (List Char)
  | c :: cs =>
    if isDigit c then
      let (ds, rest) := moreDigits isDigit cs
      some (c :: ds, rest)
    else none
  | [] => none

/-- Whether there is a minus sign, and the rest behind a sign. -/
def sign : List Char → Bool × List Char
  | '+' :: cs => (false, cs)
  | '-' :: cs => (true, cs)
  | cs => (false, cs)

/-- A zero, or digits that do not begin with zero. -/
def whole? : Scan (List Char)
  | '0' :: cs => some (['0'], cs)
  | cs => digits? isDigit cs

/-- A decimal integer: its sign and its digits. -/
def decimal? (cs : List Char) : Option ((Bool × List Char) × List Char) :=
  (whole? (sign cs).2).map fun (ds, rest) => (((sign cs).1, ds), rest)

def exponent? : Scan (Option Int)
  | c :: cs =>
    if c = 'e' || c = 'E' then
      (digits? isDigit (sign cs).2).bind fun (ds, rest) =>
        (ofDigits? 10 ds).map fun n => (some (if (sign cs).1 then -n else n), rest)
    else some (none, c :: cs)
  | [] => some (none, [])

def fraction? : Scan (Option (List Char))
  | '.' :: cs => (digits? isDigit cs).map fun (ds, rest) => (some ds, rest)
  | cs => some (none, cs)

/-- Whether `significand · 10 ^ exponent` is beyond the finite binary64 numbers. -/
def isInfinite (significand : Nat) (exponent : Int) : Bool :=
  let leading := (toString significand).length + exponent
  if significand = 0 ∨ leading < 300 then false
  else if 320 < leading then true
  else
    Binary64.infiniteRank ≤
      Binary64.nearestRank (significand * Nat.pow 10 exponent.toNat * Binary64.unitsOfOne)
        (Nat.pow 10 (-exponent).toNat)

/-- A word for infinity or no number, behind an optional sign. -/
def specialFloat? (cs : List Char) : Option (List Char) :=
  match (sign cs).2 with
  | 'i' :: 'n' :: 'f' :: rest => some rest
  | 'n' :: 'a' :: 'n' :: rest => some rest
  | _ => none

/-- The rest behind a number with a fraction or an exponent, which must not be above all finite
numbers. -/
def plainFloat? (cs : List Char) : Option (List Char) := do
  let ((negative, whole), rest) ← decimal? cs
  let (fraction, rest) ← fraction? rest
  let (exponent, rest) ← exponent? rest
  if fraction.isNone && exponent.isNone then none
  let fraction := fraction.getD []
  let significand ← ofDigits? 10 (whole ++ fraction)
  if !negative && isInfinite significand (exponent.getD 0 - fraction.length) then none
  return rest

/-- A number with a fraction or an exponent, or a word for infinity or no number. -/
def float? : Scan Value := fun cs =>
  (plainFloat? cs).or (specialFloat? cs) |>.map fun rest => (.float (before cs rest), rest)

/-- One more than the greatest integer. -/
def integerBound : Nat := Nat.pow 2 63

def integerOfBase? (base : Nat) (cs : List Char) : Option (Value × List Char) :=
  (digits? (fun c => (digitValue? base c).isSome) cs).bind fun (ds, rest) =>
    ((ofDigits? base ds).filter (· < integerBound)).map fun n => (.int n, rest)

def integer? : Scan Value
  | '0' :: 'x' :: cs => integerOfBase? 16 cs
  | '0' :: 'o' :: cs => integerOfBase? 8 cs
  | '0' :: 'b' :: cs => integerOfBase? 2 cs
  | cs =>
    (decimal? cs).bind fun ((negative, ds), rest) =>
      (ofDigits? 10 ds).bind fun n =>
        if negative then if n ≤ integerBound then some (.int (-n), rest) else none
        else if n < integerBound then some (.int n, rest)
        else none

def scalar? : Scan Value := fun cs => (dateTime? cs).or ((float? cs).or (integer? cs))

end Excerpt.Toml
