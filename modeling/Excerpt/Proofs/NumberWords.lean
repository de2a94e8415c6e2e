import Mathlib.Data.List.TakeWhile
import Excerpt.Json.Number
import Excerpt.Proofs.CanonicalIndex
import Excerpt.Proofs.ShortestDigits

/-!
# The texts of numbers are numbers

* `absorb_eq`, `float?_eq` — digits that fit a word are all taken;
* `ofUnsignedWord?_fraction`, `ofUnsignedWord?_exponent` — the words of binary64 numbers;
* `exponent?_exponentPart` — an exponent is read as it was written;
* `isSome_positional`, `isSome_scientific` — the two notations of a decimal;
* `Number.isSome_ofWord?_render` — every number has a text that is read as a number.
-/

namespace Excerpt.Json.Number

open Binary64 Text.Numeral

/-! ### Digits -/

theorem le_ofDigitChars (cs : List Char) (s : Nat) : s ≤ Nat.ofDigitChars 10 cs s := by
  induction cs generalizing s with
  | nil => exact Nat.le_refl s
  | cons c cs ih =>
    rw [Nat.ofDigitChars_cons]
    exact Nat.le_trans (by omega) (ih _)

theorem ofDigitChars_lt {cs : List Char} (hcs : ∀ c ∈ cs, isDigit c) (s : Nat) :
    Nat.ofDigitChars 10 cs s < (s + 1) * Nat.pow 10 cs.length := by
  induction cs generalizing s with
  | nil => exact Nat.lt_of_lt_of_eq (Nat.lt_succ_self s) (Nat.mul_one _).symm
  | cons c cs ih =>
    obtain ⟨hc, hcs⟩ := List.forall_mem_cons.1 hcs
    have hdigit : c.toNat - '0'.toNat ≤ 9 := by
      have hc := isDigit_iff.1 hc
      have hzero : '0'.toNat = 48 := rfl
      omega
    rw [Nat.ofDigitChars_cons]
    calc Nat.ofDigitChars 10 cs (10 * s + (c.toNat - '0'.toNat))
        < (10 * s + (c.toNat - '0'.toNat) + 1) * Nat.pow 10 cs.length := ih hcs _
      _ ≤ (s + 1) * 10 * Nat.pow 10 cs.length := Nat.mul_le_mul_right _ (by omega)
      _ = (s + 1) * Nat.pow 10 (c :: cs).length := by
        rw [List.length_cons, ten_pow_add, Nat.mul_assoc, Nat.mul_comm (Nat.pow 10 cs.length)]

theorem ofDigitChars_zeros (n : Nat) (cs : List Char) :
    Nat.ofDigitChars 10 (List.replicate n '0' ++ cs) 0 = Nat.ofDigitChars 10 cs 0 := by
  induction n with
  | zero => rfl
  | succ n ih => rwa [List.replicate_succ, List.cons_append, Nat.ofDigitChars_cons]

theorem isDigit_of_mem_zeros {n : Nat} : ∀ c ∈ List.replicate n '0', isDigit c := by
  intro c hc
  rw [(List.mem_replicate.1 hc).2]
  rfl

/-- **Digits that fit a word are all taken.** -/
theorem absorb_eq {cs : List Char} (hcs : ∀ c ∈ cs, isDigit c) {s : Nat}
    (h : Nat.ofDigitChars 10 cs s < wordBound) :
    absorb s cs = (Nat.ofDigitChars 10 cs s, cs.length) := by
  induction cs generalizing s with
  | nil => rfl
  | cons c cs ih =>
    obtain ⟨hc, hcs⟩ := List.forall_mem_cons.1 hcs
    rw [Nat.ofDigitChars_cons, Nat.mul_comm] at h ⊢
    have hgrown : s * 10 + (digitValue? 10 c).getD 0 = s * 10 + (c.toNat - '0'.toNat) := by
      rw [digitValue?_of_isDigit hc]
      rfl
    have hfits : s * 10 + (c.toNat - '0'.toNat) < wordBound :=
      Nat.lt_of_le_of_lt (le_ofDigitChars cs _) h
    rw [absorb, hgrown, if_pos hfits, ih hcs h]
    rfl

/-- A number of digits that fit a word. -/
theorem float?_eq {whole fraction : List Char} (hwhole : ∀ c ∈ whole, isDigit c)
    (hfraction : ∀ c ∈ fraction, isDigit c)
    (h : Nat.ofDigitChars 10 (whole ++ fraction) 0 < wordBound) (negative : Bool) (e : Int) :
    float? negative whole fraction e =
      (ofScaled? negative (Nat.ofDigitChars 10 (whole ++ fraction) 0) (e - fraction.length)).map
        .float := by
  rw [Nat.ofDigitChars_append] at h ⊢
  have hfirst := absorb_eq hwhole (Nat.lt_of_le_of_lt (le_ofDigitChars fraction _) h)
  simp only [float?, hfirst, absorb_eq hfraction h, Int.sub_self, Int.add_zero]

/-! ### Words -/

/-- Digits that are read as a whole part: those of a number above zero, with digits behind them. -/
theorem isWhole_of_ne_zero {c : Char} (hc : c ≠ '0') (cs : List Char) : isWhole (c :: cs) = true := by
  unfold isWhole
  split
  · next h => cases h
  · rfl
  · next h => exact decide_eq_true (by cases h; exact hc)

section Words

variable {negative : Bool} {whole fraction tail : List Char} {e : Int}

/-- A word with a fraction. -/
theorem ofUnsignedWord?_fraction (hw : ∀ c ∈ whole, isDigit c) (hwhole : isWhole whole = true)
    (hf : ∀ c ∈ fraction, isDigit c) (hne : fraction ≠ [])
    (htail : ∀ c ∈ tail.head?, isDigit c = false) (he : exponent? tail = some e) :
    ofUnsignedWord? negative (whole ++ '.' :: (fraction ++ tail)) =
      float? negative whole fraction e := by
  have hdot : isDigit '.' = false := by decide
  have htake : tail.takeWhile isDigit = [] := by
    cases tail with
    | nil => rfl
    | cons c cs => exact List.takeWhile_cons_of_neg (by simp [htail c rfl])
  have hdrop : tail.dropWhile isDigit = tail := by
    cases tail with
    | nil => rfl
    | cons c cs => exact List.dropWhile_cons_of_neg (by simp [htail c rfl])
  have hrest : fraction? ('.' :: (fraction ++ tail)) = some (fraction, tail) := by
    simp only [fraction?, List.takeWhile_append_of_pos hf, List.dropWhile_append_of_pos hf, htake,
      hdrop, List.append_nil]
    simp [hne]
  rw [ofUnsignedWord?, List.takeWhile_append_of_pos hw, List.dropWhile_append_of_pos hw,
    List.takeWhile_cons_of_neg (by simp [hdot]), List.dropWhile_cons_of_neg (by simp [hdot]),
    List.append_nil, hwhole, hrest]
  simp [he]

/-- A word with an exponent and no fraction. -/
theorem ofUnsignedWord?_exponent (hw : ∀ c ∈ whole, isDigit c) (hwhole : isWhole whole = true)
    (he : exponent? ('e' :: tail) = some e) :
    ofUnsignedWord? negative (whole ++ 'e' :: tail) = float? negative whole [] e := by
  have hmark : isDigit 'e' = false := by decide
  have hrest : fraction? ('e' :: tail) = some ([], 'e' :: tail) := rfl
  rw [ofUnsignedWord?, List.takeWhile_append_of_pos hw, List.dropWhile_append_of_pos hw,
    List.takeWhile_cons_of_neg (by simp [hmark]), List.dropWhile_cons_of_neg (by simp [hmark]),
    List.append_nil, hwhole, hrest]
  simp [he]

/-- **An exponent is read as it was written.** -/
theorem exponent?_exponentPart (e : Int) :
    exponent? (layout.exponentPart e).toList = some e := by
  have hdigits : ofDigits? 10 (toString e.natAbs).toList = some e.natAbs := by
    rw [toList_toString, ofDigits?_toDigits]
  by_cases hneg : e < 0
  · have hpart : (layout.exponentPart e).toList = 'e' :: '-' :: (toString e.natAbs).toList := by
      simp [Layout.exponentPart, hneg]
    rw [hpart, exponent?, hdigits, Option.map_some]
    exact congrArg some (by rw [Int.ofNat_eq_natCast]; omega)
  · have hpart : (layout.exponentPart e).toList = 'e' :: '+' :: (toString e.natAbs).toList := by
      simp [Layout.exponentPart, hneg, layout]
    rw [hpart, exponent?, hdigits, Option.map_some]
    exact congrArg some (by rw [Int.ofNat_eq_natCast]; omega)

end Words

/-! ### Notations -/

section Notations

variable {d : Decimal} (negative : Bool)

theorem pow_lt_wordBound : Nat.pow 10 17 < wordBound := by decide

theorem isSome_ofScaled?_of_compact (h : Compact d) :
    (ofScaled? negative d.digits d.exponent).isSome := by
  have hword := Nat.lt_of_le_of_lt h.digits_le pow_lt_wordBound
  cases hexp : d.exponent with
  | ofNat e => exact isSome_ofScaled?_ofNat negative hword (h.value_le e hexp) fun _ => h.digits_le
  | negSucc e => exact isSome_ofScaled?_negSucc negative hword e

theorem isSome_ofScaled?_of_neg {significand : Nat} (h : significand < wordBound) {e : Int}
    (he : e < 0) : (ofScaled? negative significand e).isSome := by
  obtain ⟨n, rfl⟩ := Int.eq_negSucc_of_lt_zero he
  exact isSome_ofScaled?_negSucc negative h n

theorem isSome_float? {whole fraction : List Char} (hw : ∀ c ∈ whole, isDigit c)
    (hf : ∀ c ∈ fraction, isDigit c) {v : Nat}
    (hv : Nat.ofDigitChars 10 (whole ++ fraction) 0 = v) (hword : v < wordBound) {e : Int}
    (hscaled : (ofScaled? negative v (e - fraction.length)).isSome) :
    (float? negative whole fraction e).isSome := by
  rw [float?_eq hw hf (hv ▸ hword), hv, Option.isSome_map]
  exact hscaled

section Digits

variable {c : Char} {cs : List Char} (hc : c ≠ '0') (hds : ∀ x ∈ c :: cs, isDigit x)

include hc hds

/-- A whole number: its digits, zeros, and a zero behind the point. -/
theorem isSome_whole {n : Nat} (hlength : (c :: cs).length + n ≤ 16) :
    (ofUnsignedWord? negative
      ((c :: cs ++ List.replicate n '0') ++ '.' :: (['0'] ++ []))).isSome := by
  have hw : ∀ x ∈ c :: cs ++ List.replicate n '0', isDigit x := fun x hx =>
    (List.mem_append.1 hx).elim (hds x) (isDigit_of_mem_zeros x)
  have hf : ∀ x ∈ ['0'], isDigit x := isDigit_of_mem_zeros (n := 1)
  have hall : ∀ x ∈ c :: cs ++ List.replicate n '0' ++ ['0'], isDigit x := fun x hx =>
    (List.mem_append.1 hx).elim (hw x) (hf x)
  have hlength : (c :: cs ++ List.replicate n '0' ++ ['0']).length ≤ 17 := by
    rw [List.length_append, List.length_append, List.length_replicate, List.length_singleton]
    omega
  have hlt : Nat.ofDigitChars 10 (c :: cs ++ List.replicate n '0' ++ ['0']) 0 < wordBound :=
    calc Nat.ofDigitChars 10 (c :: cs ++ List.replicate n '0' ++ ['0']) 0
        < (0 + 1) * Nat.pow 10 (c :: cs ++ List.replicate n '0' ++ ['0']).length :=
          ofDigitChars_lt hall 0
      _ ≤ (0 + 1) * Nat.pow 10 17 :=
          Nat.mul_le_mul_left _ (Nat.pow_le_pow_right (Nat.succ_pos 9) hlength)
      _ ≤ wordBound := by decide
  rw [ofUnsignedWord?_fraction hw (isWhole_of_ne_zero hc _) hf (by simp) (by simp) rfl]
  exact isSome_float? negative hw hf rfl hlt (isSome_ofScaled?_of_neg negative hlt (by decide))

variable (h : Compact d) (hvalue : Nat.ofDigitChars 10 (c :: cs) 0 = d.digits)

include h hvalue

/-- The point is among the digits. -/
theorem isSome_split {p : Nat} (hp : p + 1 < (c :: cs).length)
    (hexp : ((c :: cs).length : Int) + d.exponent = p + 1) :
    (ofUnsignedWord? negative
      ((c :: cs).take (p + 1) ++ '.' :: ((c :: cs).drop (p + 1) ++ []))).isSome := by
  have hword := Nat.lt_of_le_of_lt h.digits_le pow_lt_wordBound
  have hw : ∀ x ∈ (c :: cs).take (p + 1), isDigit x := fun x hx => hds x (List.mem_of_mem_take hx)
  have hf : ∀ x ∈ (c :: cs).drop (p + 1), isDigit x := fun x hx => hds x (List.mem_of_mem_drop hx)
  have hne : (c :: cs).drop (p + 1) ≠ [] := by
    rw [Ne, List.drop_eq_nil_iff]
    omega
  have hexp : (0 : Int) - ((c :: cs).drop (p + 1)).length = d.exponent := by
    rw [List.length_drop]
    omega
  have hsame : Nat.ofDigitChars 10 ((c :: cs).take (p + 1) ++ (c :: cs).drop (p + 1)) 0 =
      d.digits := by rw [List.take_append_drop, hvalue]
  rw [ofUnsignedWord?_fraction hw (isWhole_of_ne_zero hc _) hf hne (by simp) rfl]
  refine isSome_float? negative hw hf hsame hword ?_
  rw [hexp]
  exact isSome_ofScaled?_of_compact negative h

omit hc in
/-- The point is before the digits, with zeros in between. -/
theorem isSome_small (n : Nat) :
    (ofUnsignedWord? negative
      (['0'] ++ '.' :: ((List.replicate n '0' ++ c :: cs) ++ []))).isSome := by
  have hword := Nat.lt_of_le_of_lt h.digits_le pow_lt_wordBound
  have hw : ∀ x ∈ ['0'], isDigit x := isDigit_of_mem_zeros (n := 1)
  have hf : ∀ x ∈ List.replicate n '0' ++ c :: cs, isDigit x := fun x hx =>
    (List.mem_append.1 hx).elim (isDigit_of_mem_zeros x) (hds x)
  have hsame : Nat.ofDigitChars 10 (['0'] ++ (List.replicate n '0' ++ c :: cs)) 0 = d.digits :=
    (ofDigitChars_zeros (n + 1) (c :: cs)).trans hvalue
  rw [ofUnsignedWord?_fraction hw rfl hf (by simp) (by simp) rfl]
  refine isSome_float? negative hw hf hsame hword (isSome_ofScaled?_of_neg negative hword ?_)
  rw [List.length_append, List.length_cons]
  omega

/-- One digit before the point, and an exponent. -/
theorem isSome_scientific :
    (ofUnsignedWord? negative
      (layout.scientific (c :: cs) ((c :: cs).length + d.exponent - 1)).toList).isSome := by
  have hword := Nat.lt_of_le_of_lt h.digits_le pow_lt_wordBound
  obtain ⟨hfirst, hf⟩ := List.forall_mem_cons.1 hds
  have hw : ∀ x ∈ [c], isDigit x := List.forall_mem_singleton.2 hfirst
  have hwhole := isWhole_of_ne_zero hc []
  have hscaled : (ofScaled? negative d.digits
      (((c :: cs).length + d.exponent - 1 : Int) - cs.length)).isSome := by
    have hexp : ((c :: cs).length + d.exponent - 1 : Int) - cs.length = d.exponent := by
      rw [List.length_cons]
      omega
    rw [hexp]
    exact isSome_ofScaled?_of_compact negative h
  generalize ((c :: cs).length + d.exponent - 1 : Int) = leading at hscaled ⊢
  have hexp := exponent?_exponentPart leading
  obtain ⟨tail, htail⟩ : ∃ tail, (layout.exponentPart leading).toList = 'e' :: tail :=
    ⟨_, by simp [Layout.exponentPart]; rfl⟩
  rw [htail] at hexp
  cases cs with
  | nil =>
    have htext : (layout.scientific [c] leading).toList = [c] ++ 'e' :: tail := by
      simp [Layout.scientific, htail]
    rw [htext, ofUnsignedWord?_exponent hw hwhole hexp]
    have hf : ∀ x ∈ ([] : List Char), isDigit x := fun x hx => absurd hx List.not_mem_nil
    exact isSome_float? negative hw hf hvalue hword hscaled
  | cons c' cs =>
    have htext : (layout.scientific (c :: c' :: cs) leading).toList =
        [c] ++ '.' :: (c' :: cs ++ 'e' :: tail) := by simp [Layout.scientific, htail]
    rw [htext, ofUnsignedWord?_fraction hw hwhole hf (by simp) (by simp; decide) hexp]
    exact isSome_float? negative hw hf hvalue hword hscaled

/-- The positional notation, for numbers that are not too great. -/
theorem isSome_positional (hlead : ((c :: cs).length : Int) + d.exponent - 1 ≤ 15) :
    (ofUnsignedWord? negative (layout.positional (c :: cs) d.exponent).toList).isSome := by
  unfold Layout.positional
  dsimp only
  split
  · have htext : (String.ofList (c :: cs) ++ Layout.zeros d.exponent.toNat ++
        (if layout.keepsFraction then ".0" else "")).toList =
          (c :: cs ++ List.replicate d.exponent.toNat '0') ++ '.' :: (['0'] ++ []) := by
      simp [Layout.zeros, layout]
    rw [htext]
    exact isSome_whole negative hc hds (by omega)
  · split
    · next hpoint =>
      obtain ⟨p, hp⟩ : ∃ p : Nat, ((c :: cs).length : Int) + d.exponent = p + 1 :=
        ⟨(((c :: cs).length : Int) + d.exponent - 1).toNat, by omega⟩
      have htext : (String.ofList ((c :: cs).take (((c :: cs).length : Int) + d.exponent).toNat) ++
          "." ++ String.ofList ((c :: cs).drop (((c :: cs).length : Int) + d.exponent).toNat)).toList =
            (c :: cs).take (p + 1) ++ '.' :: ((c :: cs).drop (p + 1) ++ []) := by
        rw [hp]
        simp
      rw [htext]
      exact isSome_split negative hc hds h hvalue (by omega) hp
    · have htext : ("0." ++ Layout.zeros (-(((c :: cs).length : Int) + d.exponent)).toNat ++
          String.ofList (c :: cs)).toList = ['0'] ++ '.' ::
            ((List.replicate (-(((c :: cs).length : Int) + d.exponent)).toNat '0' ++ c :: cs) ++
              []) := by simp [Layout.zeros]
      rw [htext]
      exact isSome_small negative hds h hvalue _

end Digits

/-- A decimal is written as a number. -/
theorem isSome_decimal (h : Compact d) :
    (ofUnsignedWord? negative (layout.decimal d).toList).isSome := by
  have hvalue := Nat.ofDigitChars_ten_toDigits (n := d.digits)
  have hds : ∀ x ∈ Nat.toDigits 10 d.digits, isDigit x := fun _ => isDigit_of_mem_toDigits
  obtain ⟨c, cs, hdigits, hc⟩ := exists_toDigits_cons h.pos
  rw [hdigits] at hvalue hds
  rw [Layout.decimal, toList_toString, hdigits]
  split
  · next hlead => exact isSome_positional negative hc hds h hvalue hlead.2
  · exact isSome_scientific negative hc hds h hvalue

end Notations

/-! ### Numbers -/

/-- A word that is read without a sign is read with and without one. -/
theorem isSome_ofWord? {word : List Char} (h : ∀ negative, (ofUnsignedWord? negative word).isSome)
    (negative : Bool) : (ofWord? (if negative then '-' :: word else word)).isSome := by
  cases negative with
  | true => exact h true
  | false =>
    rw [if_neg (by decide)]
    unfold ofWord?
    split
    · next cs =>
      have hnone : (none : Option Number).isSome := h false
      exact absurd hnone nofun
    · exact h false

theorem isWhole_toDigits (n : Nat) : isWhole (Nat.toDigits 10 n) = true := by
  rcases Nat.eq_zero_or_pos n with rfl | hpos
  · rfl
  · obtain ⟨c, cs, hdigits, hc⟩ := exists_toDigits_cons hpos
    rw [hdigits]
    exact isWhole_of_ne_zero hc cs

/-- The digits of an integer that fits. -/
theorem isSome_magnitude {negative : Bool} {magnitude : Nat}
    (hfits : FitsWord (if negative then -magnitude else magnitude))
    (hzero : ¬(negative ∧ magnitude = 0)) :
    (ofUnsignedWord? negative (Nat.toDigits 10 magnitude)).isSome := by
  have hdigits : ∀ c ∈ Nat.toDigits 10 magnitude, isDigit c := fun _ => isDigit_of_mem_toDigits
  have hinteger : (integer? negative magnitude).isSome := by
    rw [integer?, dif_pos ⟨hfits, hzero⟩]
    rfl
  rw [ofUnsignedWord?, List.takeWhile_eq_self_iff.2 hdigits, List.dropWhile_eq_nil_iff.2 hdigits,
    isWhole_toDigits, ofDigits?_toDigits, Option.bind_some]
  simp [hinteger]

theorem isSome_int {n : Int} (fits : FitsWord n) : (ofWord? (toString n).toList).isSome := by
  cases n with
  | ofNat n =>
    have htext : (toString (Int.ofNat n)).toList = Nat.toDigits 10 n := toList_toString n
    have hword : ofWord? (Nat.toDigits 10 n) = ofUnsignedWord? false (Nat.toDigits 10 n) := by
      unfold ofWord?
      split
      · next cs hcs =>
        have hdigit : isDigit '-' = true := isDigit_of_mem_toDigits (hcs ▸ List.mem_cons_self)
        exact absurd hdigit (by decide)
      · rfl
    rw [htext, hword]
    exact isSome_magnitude fits (by simp)
  | negSucc n =>
    have htext : (toString (Int.negSucc n)).toList = '-' :: Nat.toDigits 10 (n + 1) := by
      show ("-" ++ toString (n + 1)).toList = _
      rw [String.toList_append, toList_toString]
      rfl
    rw [htext]
    have hread : (ofUnsignedWord? true (Nat.toDigits 10 (n + 1))).isSome :=
      isSome_magnitude fits (by simp)
    exact hread

theorem isSome_float (x : Binary64) : (ofWord? (layout.render x).toList).isSome := by
  obtain ⟨negative, rank, finite⟩ := x
  have hbody : ∃ body : String, layout.render ⟨negative, rank, finite⟩ =
      (if negative then "-" ++ body else body) ∧
      ∀ negative, (ofUnsignedWord? negative body.toList).isSome := by
    rcases Nat.eq_zero_or_pos rank with rfl | hpos
    · exact ⟨"0.0", rfl, by decide +kernel⟩
    · refine ⟨layout.decimal (shortest rank), ?_, fun negative =>
        isSome_decimal negative (compact_shortest hpos finite)⟩
      rw [Layout.render, if_neg (Nat.ne_of_gt hpos)]
  obtain ⟨body, hrender, hread⟩ := hbody
  have htext : (layout.render ⟨negative, rank, finite⟩).toList =
      if negative then '-' :: body.toList else body.toList := by
    rw [hrender]
    cases negative <;> simp
  rw [htext]
  exact isSome_ofWord? hread negative

/-- **Every number has a text that is read as a number.** -/
theorem isSome_ofWord?_render : (n : Number) → (ofWord? n.render.toList).isSome
  | .int _ fits => isSome_int fits
  | .float x => isSome_float x

end Excerpt.Json.Number
