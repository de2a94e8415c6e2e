/-!
# Finite binary64 numbers

* `Binary64` — a finite number, as a sign and a rank: the non-negative finite numbers in increasing
  order have the ranks 0, 1, 2, …;
* `Binary64.ulps` — the value of a rank in multiples of the least positive number `2 ^ (-1074)`;
* `Binary64.nearestRank` — the rank of the number nearest to a ratio, a half going to the even rank.

All arithmetic is on natural numbers.
-/

namespace Excerpt

namespace Binary64

/-- The count of the numbers between two powers of two. -/
def binade : Nat := Nat.pow 2 52

/-- The rank behind that of the largest finite number. -/
def infiniteRank : Nat := 2047 * binade

/-- The number of least positive numbers that make one. -/
def unitsOfOne : Nat := Nat.pow 2 1074

end Binary64

structure Binary64 where
  /-- Whether the sign is a minus; zero has both signs. -/
  negative : Bool
  /-- The place of the absolute value among the non-negative finite numbers. -/
  rank : Nat
  finite : rank < Binary64.infiniteRank
  deriving DecidableEq

namespace Binary64

/-- The value of a rank, in multiples of the least positive number. -/
def ulps (rank : Nat) : Nat :=
  if rank < binade then rank
  else (binade + rank % binade) * Nat.pow 2 (rank / binade - 1)

/-- A quotient rounded to the nearest natural number, a half to the even one. -/
def roundedQuotient (num den : Nat) : Nat :=
  let q := num / den
  let r := num % den
  if 2 * r > den ∨ (2 * r = den ∧ q % 2 = 1) then q + 1 else q

/-- The rank nearest to `num / den` least positive numbers. The quotient has at most 53 binary
digits after division by a suitable power of two, and each such power adds a binade to the rank. -/
def nearestRank (num den : Nat) : Nat :=
  let shift := (num / den).log2 - 52
  shift * binade + roundedQuotient num (den * Nat.pow 2 shift)

def rankOfNat (n : Nat) : Nat := nearestRank (n * unitsOfOne) 1

/-- The rank nearest to the product of two ranks' values. -/
def rankMul (a b : Nat) : Nat := nearestRank (ulps a * ulps b) unitsOfOne

/-- The rank nearest to the quotient of two ranks' values. -/
def rankDiv (a b : Nat) : Nat := nearestRank (ulps a * unitsOfOne) (ulps b)

/-- The number of a sign and a rank, if it is finite. -/
def ofRank? (negative : Bool) (rank : Nat) : Option Binary64 :=
  if h : rank < infiniteRank then some ⟨negative, rank, h⟩ else none

end Binary64

end Excerpt
