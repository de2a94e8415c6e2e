import Excerpt.Binary64.Basic

/-!
# Shortest decimals

* `Decimal` — digits and a power of ten;
* `readsBack` — whether a decimal lies in the interval of the reals that round to a rank;
* `shortest` — the decimal with the fewest digits in that interval, of those the nearest to the
  number, and of two equally near ones the even one.
-/

namespace Excerpt.Binary64

/-- The number `digits · 10 ^ exponent`. -/
structure Decimal where
  digits : Nat
  /-- The power of ten of the last digit. -/
  exponent : Int
  deriving DecidableEq, Repr

namespace Decimal

/-- Numerator of a decimal over `denominator`, in halves of the least positive binary64 number. -/
def numerator (d : Decimal) : Nat := d.digits * Nat.pow 10 d.exponent.toNat * (2 * unitsOfOne)

/-- Denominator that goes with `numerator`. -/
def denominator (d : Decimal) : Nat := Nat.pow 10 (-d.exponent).toNat

/-- The same number without zeros at the end of the digits, found in at most `fuel` steps. -/
def stripFrom : (fuel : Nat) → Decimal → Decimal
  | 0, d => d
  | fuel + 1, d =>
    if d.digits % 10 = 0 then stripFrom fuel ⟨d.digits / 10, d.exponent + 1⟩ else d

/-- The same number without zeros at the end of the digits; zero is left alone. -/
def strip (d : Decimal) : Decimal :=
  if d.digits = 0 then d else stripFrom (d.digits.log2 + 1) d

end Decimal

/-- Twice the value of a rank, and the two ends of the interval of the reals that round to it, in
halves of the least positive number. -/
def interval (rank : Nat) : Nat × Nat × Nat :=
  (ulps (rank - 1) + ulps rank, 2 * ulps rank, ulps rank + ulps (rank + 1))

/-- Whether a decimal rounds to a rank: it lies between the middles to both neighbours, and on a
middle only if the rank is even. -/
def readsBack (rank : Nat) (d : Decimal) : Bool :=
  let (low, _, high) := interval rank
  let x := d.numerator
  let low := low * d.denominator
  let high := high * d.denominator
  if rank % 2 = 0 then low ≤ x && x ≤ high else low < x && x < high

/-- Whether the power of ten `10 ^ e` is at most the value of a rank. -/
def atLeastPower (rank : Nat) (e : Int) : Bool :=
  let d : Decimal := ⟨1, e⟩
  d.numerator ≤ 2 * ulps rank * d.denominator

/-- The exponent of the first decimal digit, up to one, of a number with the given binary logarithm
in multiples of the least positive number. -/
def leadingGuess (log : Nat) : Int := ((log - 1074 : Int) * 30103) / 100000

/-- The exponent of the first decimal digit of a rank that is not zero. -/
def leadingExponent (rank : Nat) : Int :=
  let guess := leadingGuess (ulps rank).log2
  if atLeastPower rank (guess + 1) then guess + 1
  else if atLeastPower rank guess then guess
  else guess - 1

/-- The multiple of `10 ^ e` nearest to a rank among those that round to it. -/
def nearestOnGrid? (rank : Nat) (e : Int) : Option Decimal :=
  let grid : Decimal := ⟨1, e⟩
  let x := 2 * ulps rank * grid.denominator
  let below := x / grid.numerator
  let rest := 2 * (x % grid.numerator)
  let lower : Decimal := ⟨below, e⟩
  let upper : Decimal := ⟨below + 1, e⟩
  let lowerFits := readsBack rank lower
  let upperFits := readsBack rank upper
  if lowerFits && upperFits then
    if rest < grid.numerator ∨ (rest = grid.numerator ∧ below % 2 = 0) then some lower
    else some upper
  else if lowerFits then some lower
  else if upperFits then some upper
  else none

/-- The most digits that are ever needed. -/
def maxDigits : Nat := 17

/-- The decimal with the fewest digits that rounds to a rank. The first grid that has such a
decimal decides; the exact value stands behind the last grid. -/
def shortest (rank : Nat) : Decimal :=
  let e := leadingExponent rank
  let found := (List.range maxDigits).findSome? fun (n : Nat) => nearestOnGrid? rank (e - n)
  (found.getD ⟨ulps rank * Nat.pow 5 1074, -1074⟩).strip

end Excerpt.Binary64
