import Excerpt.Binary64.Shortest

/-!
# Decimal notation of binary64 numbers

* `Layout` — where positional notation ends, and how exponents are written;
* `Layout.render` — the text of a number with the fewest digits that read back.
-/

namespace Excerpt.Binary64

/-- The decisions of a decimal notation. -/
structure Layout where
  /-- The least exponent of the first digit that is written positionally. -/
  leastPositional : Int
  greatestPositional : Int
  /-- Whether a whole number is written with a fraction. -/
  keepsFraction : Bool
  /-- Whether a positive exponent has a sign. -/
  signsExponent : Bool
  deriving DecidableEq, Repr

namespace Layout

def zeros (n : Nat) : String := String.ofList (List.replicate n '0')

/-- Digits with the point at its place. -/
def positional (l : Layout) (digits : List Char) (exponent : Int) : String :=
  let point := digits.length + exponent
  if 0 ≤ exponent then
    String.ofList digits ++ zeros exponent.toNat ++ (if l.keepsFraction then ".0" else "")
  else if 0 < point then
    String.ofList (digits.take point.toNat) ++ "." ++ String.ofList (digits.drop point.toNat)
  else
    "0." ++ zeros (-point).toNat ++ String.ofList digits

/-- The sign and the digits of an exponent. -/
def exponentPart (l : Layout) (e : Int) : String :=
  let sign := if e < 0 then "-" else if l.signsExponent then "+" else ""
  "e" ++ sign ++ toString e.natAbs

/-- One digit before the point, the others behind it, and the exponent. -/
def scientific (l : Layout) (digits : List Char) (leading : Int) : String :=
  match digits with
  | [] => ""
  | [d] => String.ofList [d] ++ l.exponentPart leading
  | d :: ds => String.ofList [d] ++ "." ++ String.ofList ds ++ l.exponentPart leading

/-- The text of a decimal that is not zero. -/
def decimal (l : Layout) (d : Decimal) : String :=
  let digits := (toString d.digits).toList
  let leading := digits.length + d.exponent - 1
  if l.leastPositional ≤ leading ∧ leading ≤ l.greatestPositional then
    l.positional digits d.exponent
  else
    l.scientific digits leading

def render (l : Layout) (x : Binary64) : String :=
  let body :=
    if x.rank = 0 then (if l.keepsFraction then "0.0" else "0")
    else l.decimal (shortest x.rank)
  if x.negative then "-" ++ body else body

end Layout

end Excerpt.Binary64
