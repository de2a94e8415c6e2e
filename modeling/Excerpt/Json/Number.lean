import Excerpt.Binary64.Notation
import Excerpt.Binary64.Scaled
import Excerpt.Text.Numeral

/-!
# Numbers of JSON

* `FitsWord` — the integers of 64 bits, signed or unsigned;
* `Number` — an integer that was written as one and fits 64 bits, or a binary64 number;
* `Number.render` — its text;
* `Number.ofWord?` — the number of a word, by the grammar of JSON.

A word without fraction and exponent is an integer if it fits 64 bits, signed or unsigned; minus
zero and all other words are binary64 numbers, read from the digits that fit 64 bits.
-/

namespace Excerpt.Json

open Text Numeral

/-- An integer fits 64 bits, with a sign or without. -/
def FitsWord (n : Int) : Prop := -(wordBound / 2 : Nat) ≤ n ∧ n < wordBound

instance (n : Int) : Decidable (FitsWord n) := inferInstanceAs (Decidable (_ ∧ _))

inductive Number where
  | int (n : Int) (fits : FitsWord n)
  | float (x : Binary64)
  deriving DecidableEq

namespace Number

/-- The number of a count. Counts fit 64 bits; the greatest number stands for one that did not. -/
def ofNat (n : Nat) : Number :=
  .int (min n (wordBound - 1) : Nat) <| by
    have hbound : 0 < wordBound := by decide
    exact ⟨by omega, by omega⟩

/-- Whole numbers keep a fraction; exponents of the first digit from -5 to 15 are written
positionally, all others behind an `e` with a sign. -/
def layout : Binary64.Layout where
  leastPositional := -5
  greatestPositional := 15
  keepsFraction := true
  signsExponent := true

def render : Number → String
  | .int n _ => toString n
  | .float x => layout.render x

/-! ### Reading -/

/-- Take digits onto a significand while it stays below `2 ^ 64`; the significand, and how many
digits were taken. -/
def absorb (significand : Nat) : List Char → Nat × Nat
  | [] => (significand, 0)
  | c :: cs =>
    let grown := significand * 10 + (digitValue? 10 c).getD 0
    if grown < wordBound then
      let (s, n) := absorb grown cs
      (s, n + 1)
    else (significand, 0)

/-- The integer `± magnitude`, if it fits 64 bits and is not minus zero. -/
def integer? (negative : Bool) (magnitude : Nat) : Option Number :=
  let n : Int := if negative then -magnitude else magnitude
  if h : FitsWord n ∧ ¬(negative ∧ magnitude = 0) then some (.int n h.1) else none

/-- The binary64 number of digits before and behind the point and an exponent. Digits before the
point that do not fit raise the exponent, those behind it are dropped. -/
def float? (negative : Bool) (whole fraction : List Char) (exponent : Int) : Option Number :=
  let (s, taken) := absorb 0 whole
  let (s, places) := absorb s fraction
  let exponent := exponent + (whole.length - taken : Int) - places
  (Binary64.ofScaled? negative s exponent).map .float

/-- The digits of a whole part: one zero, or digits that do not start with zero. -/
def isWhole : List Char → Bool
  | [] => false
  | ['0'] => true
  | c :: _ => c ≠ '0'

/-- The digits behind a point, if there is one, and the rest of the word. -/
def fraction? : List Char → Option (List Char × List Char)
  | '.' :: cs =>
    let digits := cs.takeWhile isDigit
    if digits.isEmpty then none else some (digits, cs.dropWhile isDigit)
  | cs => some ([], cs)

/-- The exponent at the end of a word, if there is one. -/
def exponent? : List Char → Option Int
  | [] => some 0
  | 'e' :: cs | 'E' :: cs =>
    match cs with
    | '+' :: ds => (ofDigits? 10 ds).map Int.ofNat
    | '-' :: ds => (ofDigits? 10 ds).map fun n => -Int.ofNat n
    | ds => (ofDigits? 10 ds).map Int.ofNat
  | _ => none

/-- The number of a word without sign. -/
def ofUnsignedWord? (negative : Bool) (word : List Char) : Option Number :=
  let whole := word.takeWhile isDigit
  let rest := word.dropWhile isDigit
  if !isWhole whole then none
  else if rest.isEmpty then
    ((ofDigits? 10 whole).bind (integer? negative)).or (float? negative whole [] 0)
  else
    (fraction? rest).bind fun (fraction, rest) =>
      (exponent? rest).bind fun e => float? negative whole fraction e

def ofWord? : List Char → Option Number
  | '-' :: cs => ofUnsignedWord? true cs
  | cs => ofUnsignedWord? false cs

end Number

end Excerpt.Json
