import Excerpt.Binary64.Basic

/-!
# Numbers from a significand and a power of ten

* `scaledRank?` — the significand is rounded once and then multiplied or divided by a rounded power
  of ten; powers beyond the largest exact table entry are divided out in steps;
* `ofScaled?` — the same with a sign, `none` if the result is not finite.
-/

namespace Excerpt.Binary64

/-- The largest exponent whose power of ten is a finite number. -/
def maxPowerOfTen : Nat := 308

def powerOfTen (e : Nat) : Nat := rankOfNat (Nat.pow 10 e)

/-- Divide by `10 ^ e`, at most `10 ^ 308` at a time. -/
def divideByTens (rank e : Nat) : Nat :=
  if e ≤ maxPowerOfTen then rankDiv rank (powerOfTen e)
  else if rank = 0 then 0
  else divideByTens (rankDiv rank (powerOfTen maxPowerOfTen)) (e - maxPowerOfTen)
termination_by e
decreasing_by simp [maxPowerOfTen] at *; omega

/-- The rank of `significand · 10 ^ exponent`, `none` where a power of ten above the largest would
be needed for a significand that is not zero. -/
def scaledRank? (significand : Nat) (exponent : Int) : Option Nat :=
  let rank := rankOfNat significand
  match exponent with
  | .ofNat e =>
    if e ≤ maxPowerOfTen then some (rankMul rank (powerOfTen e))
    else if rank = 0 then some 0
    else none
  | .negSucc e => some (divideByTens rank (e + 1))

/-- The number `± significand · 10 ^ exponent`, if it is finite. -/
def ofScaled? (negative : Bool) (significand : Nat) (exponent : Int) : Option Binary64 :=
  (scaledRank? significand exponent).bind (ofRank? negative)

end Excerpt.Binary64
