/-!
# Numerals

* `digitValue?` — the value of a digit in a base up to sixteen;
* `ofDigits?` — the value of a digit string, `none` if it is empty or holds another character;
* `ofUnsigned?` — a decimal numeral with an optional plus sign;
* `ofCanonical?` — the decimal numerals that `Nat.repr` writes, and no others.
-/

namespace Excerpt.Text.Numeral

/-- One more than the largest unsigned 64-bit number. -/
def wordBound : Nat := Nat.pow 2 64

/-- The value of a digit of the base `base`, letters of either case from ten on. -/
def digitValue? (base : Nat) (c : Char) : Option Nat :=
  let v? :=
    if '0' ≤ c ∧ c ≤ '9' then some (c.toNat - '0'.toNat)
    else if 'a' ≤ c ∧ c ≤ 'f' then some (c.toNat - 'a'.toNat + 10)
    else if 'A' ≤ c ∧ c ≤ 'F' then some (c.toNat - 'A'.toNat + 10)
    else none
  v?.filter (· < base)

/-- Whether a character is one of the ten ASCII digits. -/
def isDigit (c : Char) : Bool := '0' ≤ c && c ≤ '9'

/-- Continue reading digits after the value `acc`. -/
def digitsFrom? (base : Nat) : (acc : Nat) → List Char → Option Nat
  | acc, [] => some acc
  | acc, c :: cs => (digitValue? base c).bind fun d => digitsFrom? base (acc * base + d) cs

/-- The value of a non-empty string of digits. -/
def ofDigits? (base : Nat) : List Char → Option Nat
  | [] => none
  | cs => digitsFrom? base 0 cs

/-- A decimal numeral below `2 ^ 64`, leading zeros and one leading plus sign allowed. -/
def ofUnsigned? (text : String) : Option Nat :=
  let cs := match text.toList with
    | '+' :: cs => cs
    | cs => cs
  (ofDigits? 10 cs).filter (· < wordBound)

/-- A decimal numeral below `2 ^ 64` without sign or superfluous zeros. -/
def ofCanonical? (text : String) : Option Nat :=
  match text.toList with
  | ['0'] => some 0
  | '0' :: _ => none
  | cs => (ofDigits? 10 cs).filter (· < wordBound)

end Excerpt.Text.Numeral
