import Excerpt.Binary64.Scaled
import Excerpt.Text.Numeral

/-!
# Rounding keeps the order

* `ulps_mono` — a greater rank has a greater value;
* `nearestRank_mono`, `nearestRank_ulps` — a greater ratio has no smaller rank, and a number has its
  own;
* `nearestRank_le` — a ratio that is at most a number is rounded to at most that number;
* `greatest` — the greatest number;
* `isSome_ofScaled?_negSucc`, `isSome_ofScaled?_ofNat` — a significand of a word and a power of ten
  whose product is at most the greatest number have a number, apart from two powers of ten where
  rounding twice leads beyond it.
-/

namespace Excerpt.Binary64

open Text.Numeral

/-! ### Values of ranks -/

theorem binade_eq : binade = 4503599627370496 := rfl

theorem two_pow_succ (n : Nat) : Nat.pow 2 (n + 1) = Nat.pow 2 n + Nat.pow 2 n := by
  have h : Nat.pow 2 (n + 1) = Nat.pow 2 n * 2 := rfl
  omega

theorem two_pow_pos (n : Nat) : 0 < Nat.pow 2 n := Nat.two_pow_pos n

theorem ulps_of_le {rank : Nat} (h : rank ≤ binade) : ulps rank = rank := by
  rcases Nat.lt_or_eq_of_le h with h | rfl
  · exact if_pos h
  · rfl

/-- The value of a rank behind the first binade; the end of one binade begins the next. -/
theorem ulps_add {m : Nat} (q : Nat) (hm : m ≤ binade) :
    ulps ((q + 1) * binade + m) = (binade + m) * Nat.pow 2 q := by
  have hbehind : ¬(q + 1) * binade + m < binade := by
    rw [binade_eq]
    omega
  rw [ulps, if_neg hbehind]
  rcases Nat.lt_or_eq_of_le hm with hm | rfl
  · have hdiv : ((q + 1) * binade + m) / binade = q + 1 := by
      rw [binade_eq] at hm ⊢
      omega
    have hmod : ((q + 1) * binade + m) % binade = m := by
      rw [binade_eq] at hm ⊢
      omega
    rw [hdiv, hmod, Nat.add_sub_cancel]
  · have hdiv : ((q + 1) * binade + binade) / binade = q + 2 := by
      rw [binade_eq]
      omega
    have hmod : ((q + 1) * binade + binade) % binade = 0 := by
      rw [binade_eq]
      omega
    rw [hdiv, hmod, Nat.add_zero, Nat.add_succ_sub_one, two_pow_succ, Nat.mul_add, Nat.add_mul]

/-- A rank is in the first binade, or at a place of a later one. -/
theorem rank_cases (rank : Nat) :
    rank < binade ∨ ∃ q m, m < binade ∧ rank = (q + 1) * binade + m := by
  rw [binade_eq]
  by_cases h : rank < 4503599627370496
  · exact .inl h
  · exact .inr ⟨rank / 4503599627370496 - 1, rank % 4503599627370496, by omega, by omega⟩

theorem ulps_lt_succ (rank : Nat) : ulps rank < ulps (rank + 1) := by
  rcases rank_cases rank with h | ⟨q, m, hm, rfl⟩
  · rw [ulps_of_le (Nat.le_of_lt h), ulps_of_le h]
    exact Nat.lt_succ_self rank
  · rw [ulps_add q (Nat.le_of_lt hm), Nat.add_assoc, ulps_add q hm]
    exact Nat.mul_lt_mul_of_pos_right (by omega) (two_pow_pos q)

theorem ulps_mono {a b : Nat} (h : a ≤ b) : ulps a ≤ ulps b := by
  induction h with
  | refl => exact Nat.le_refl _
  | step _ ih => exact Nat.le_trans ih (Nat.le_of_lt (ulps_lt_succ _))

/-! ### Quotients -/

theorem roundedQuotient_mono {a b : Nat} (h : a ≤ b) (den : Nat) :
    roundedQuotient a den ≤ roundedQuotient b den := by
  have hq : a / den ≤ b / den := Nat.div_le_div_right h
  have ha := Nat.div_add_mod a den
  have hb := Nat.div_add_mod b den
  unfold roundedQuotient
  dsimp only
  rcases Nat.lt_or_eq_of_le hq with hq | hq
  · split <;> split <;> omega
  · rw [hq] at ha ⊢
    split <;> split <;> omega

theorem roundedQuotient_mul_right (a den : Nat) {c : Nat} (hc : 0 < c) :
    roundedQuotient (a * c) (den * c) = roundedQuotient a den := by
  have hlt : den * c < 2 * (a % den * c) ↔ den < 2 * (a % den) := by
    rw [← Nat.mul_assoc, Nat.mul_lt_mul_right hc]
  have heq : 2 * (a % den * c) = den * c ↔ 2 * (a % den) = den := by
    rw [← Nat.mul_assoc, Nat.mul_left_inj (Nat.ne_of_gt hc)]
  simp only [roundedQuotient, Nat.mul_div_mul_right _ _ hc, Nat.mul_mod_mul_right, gt_iff_lt, hlt,
    heq]

theorem roundedQuotient_mul_self (a : Nat) {den : Nat} (h : 0 < den) :
    roundedQuotient (a * den) den = a := by
  unfold roundedQuotient
  simp only [Nat.mul_div_cancel _ h, Nat.mul_mod_left]
  rw [if_neg (by omega)]

theorem le_roundedQuotient (num den : Nat) : num / den ≤ roundedQuotient num den := by
  unfold roundedQuotient
  dsimp only
  split <;> omega

theorem roundedQuotient_le (num den : Nat) : roundedQuotient num den ≤ num / den + 1 := by
  unfold roundedQuotient
  dsimp only
  split <;> omega

/-! ### Nearest ranks -/

theorem log2_le_log2 {a b : Nat} (h : a ≤ b) : a.log2 ≤ b.log2 := by
  rcases Nat.eq_zero_or_pos a with rfl | ha
  · exact Nat.zero_le _
  · exact (Nat.le_log2 (by omega)).2 (Nat.le_trans (Nat.log2_self_le (by omega)) h)

/-- The quotient that is rounded has at most 53 binary digits. -/
theorem div_shift_lt (num den : Nat) {s : Nat} (h : (num / den).log2 ≤ 52 + s) :
    num / (den * Nat.pow 2 s) < 2 * binade := by
  rw [← Nat.div_div_eq_div_mul, Nat.div_lt_iff_lt_mul (two_pow_pos s)]
  calc num / den < Nat.pow 2 ((num / den).log2 + 1) := Nat.lt_log2_self
    _ ≤ Nat.pow 2 (53 + s) := Nat.pow_le_pow_right (by decide) (by omega)
    _ = 2 * binade * Nat.pow 2 s := Nat.pow_add 2 53 s

/-- Where there is a shift it has 53 binary digits. -/
theorem le_div_shift (num den : Nat) {s : Nat} (h : (num / den).log2 = 52 + s) :
    binade ≤ num / (den * Nat.pow 2 s) := by
  have hne : num / den ≠ 0 := fun h0 => by
    rw [h0, Nat.log2_zero] at h
    omega
  rw [← Nat.div_div_eq_div_mul, Nat.le_div_iff_mul_le (two_pow_pos s)]
  calc binade * Nat.pow 2 s = Nat.pow 2 (52 + s) := (Nat.pow_add 2 52 s).symm
    _ = Nat.pow 2 (num / den).log2 := by rw [h]
    _ ≤ num / den := Nat.log2_self_le hne

/-- **A greater ratio has no smaller rank.** -/
theorem nearestRank_mono {a b : Nat} (h : a ≤ b) (den : Nat) :
    nearestRank a den ≤ nearestRank b den := by
  have hlog := log2_le_log2 (Nat.div_le_div_right (c := den) h)
  unfold nearestRank
  dsimp only
  generalize hs : (a / den).log2 - 52 = s
  generalize ht : (b / den).log2 - 52 = t
  rcases Nat.lt_or_eq_of_le (show s ≤ t by omega) with hst | rfl
  · -- the smaller ratio ends in a binade before that of the greater
    have hquotient := div_shift_lt a den (s := s) (by omega)
    have hlow := Nat.le_trans (roundedQuotient_le a (den * Nat.pow 2 s)) hquotient
    have hleast := le_div_shift b den (s := t) (by omega)
    have hhigh := Nat.le_trans hleast (le_roundedQuotient b (den * Nat.pow 2 t))
    rw [binade_eq] at *
    omega
  · exact Nat.add_le_add_left (roundedQuotient_mono h _) _

/-- **A number has its own rank.** -/
theorem nearestRank_ulps (rank : Nat) : nearestRank (ulps rank) 1 = rank := by
  rcases rank_cases rank with h | ⟨q, m, hm, rfl⟩
  · have hlog : rank.log2 ≤ 52 := Nat.le_trans (log2_le_log2 (Nat.le_of_lt h)) (by decide +kernel)
    rw [ulps_of_le (Nat.le_of_lt h), nearestRank, Nat.div_one, Nat.sub_eq_zero_of_le hlog,
      Nat.zero_mul, Nat.zero_add]
    simpa using roundedQuotient_mul_self rank Nat.one_pos
  · have hlog : ((binade + m) * Nat.pow 2 q).log2 = 52 + q := by
      have hlow : Nat.pow 2 (52 + q) ≤ (binade + m) * Nat.pow 2 q :=
        Nat.le_trans (Nat.le_of_eq (Nat.pow_add 2 52 q)) (Nat.mul_le_mul_right _ (Nat.le_add_right ..))
      have hhigh : (binade + m) * Nat.pow 2 q < Nat.pow 2 (52 + q + 1) :=
        calc (binade + m) * Nat.pow 2 q < 2 * binade * Nat.pow 2 q :=
              Nat.mul_lt_mul_of_pos_right (by omega) (two_pow_pos q)
          _ = Nat.pow 2 (53 + q) := (Nat.pow_add 2 53 q).symm
          _ = Nat.pow 2 (52 + q + 1) := by rw [Nat.add_right_comm]
      have hne : (binade + m) * Nat.pow 2 q ≠ 0 :=
        Nat.ne_of_gt (Nat.lt_of_lt_of_le (two_pow_pos _) hlow)
      exact (Nat.log2_eq_iff hne).2 ⟨hlow, hhigh⟩
    rw [ulps_add q (Nat.le_of_lt hm), nearestRank, Nat.div_one, hlog, Nat.add_sub_cancel_left,
      Nat.one_mul, roundedQuotient_mul_self _ (two_pow_pos q), Nat.succ_mul, Nat.add_assoc]

theorem nearestRank_mul_right (num den : Nat) {c : Nat} (hc : 0 < c) :
    nearestRank (num * c) (den * c) = nearestRank num den := by
  unfold nearestRank
  simp only [Nat.mul_div_mul_right _ _ hc, Nat.mul_right_comm den c,
    roundedQuotient_mul_right _ _ hc]

/-- **A ratio that is at most a number is rounded to at most that number.** -/
theorem nearestRank_le {num den rank : Nat} (hd : 0 < den) (h : num ≤ ulps rank * den) :
    nearestRank num den ≤ rank := by
  calc nearestRank num den ≤ nearestRank (ulps rank * den) (1 * den) := by
        rw [Nat.one_mul]
        exact nearestRank_mono h den
    _ = rank := by rw [nearestRank_mul_right _ _ hd, nearestRank_ulps]

/-! ### Products and quotients of numbers -/

theorem rankOfNat_mono {m n : Nat} (h : m ≤ n) : rankOfNat m ≤ rankOfNat n :=
  nearestRank_mono (Nat.mul_le_mul_right _ h) 1

theorem rankMul_mono {a b c d : Nat} (hac : a ≤ c) (hbd : b ≤ d) : rankMul a b ≤ rankMul c d :=
  nearestRank_mono (Nat.mul_le_mul (ulps_mono hac) (ulps_mono hbd)) unitsOfOne

theorem powerOfTen_mono {d e : Nat} (h : d ≤ e) : powerOfTen d ≤ powerOfTen e :=
  rankOfNat_mono (Nat.pow_le_pow_right (by decide) h)

theorem unitsOfOne_pos : 0 < unitsOfOne := by decide +kernel

theorem unitsOfOne_le_ulps_powerOfTen (e : Nat) : unitsOfOne ≤ ulps (powerOfTen e) := by
  have hone : unitsOfOne ≤ ulps (powerOfTen 0) := by decide +kernel
  exact Nat.le_trans hone (ulps_mono (powerOfTen_mono (Nat.zero_le e)))

theorem rankDiv_le {divisor : Nat} (h : unitsOfOne ≤ ulps divisor) (rank : Nat) :
    rankDiv rank divisor ≤ rank :=
  nearestRank_le (Nat.lt_of_lt_of_le unitsOfOne_pos h) (Nat.mul_le_mul_left _ h)

/-- Division by powers of ten leads to no greater number. -/
theorem divideByTens_le (rank e : Nat) : divideByTens rank e ≤ rank := by
  induction rank, e using divideByTens.induct with
  | case1 rank e h =>
    rw [divideByTens, if_pos h]
    exact rankDiv_le (unitsOfOne_le_ulps_powerOfTen e) rank
  | case2 e h =>
    have hzero : divideByTens 0 e = 0 := by rw [divideByTens, if_neg h, if_pos rfl]
    exact Nat.le_of_eq hzero
  | case3 rank e h hzero ih =>
    rw [divideByTens, if_neg h, if_neg hzero]
    exact Nat.le_trans ih (rankDiv_le (unitsOfOne_le_ulps_powerOfTen _) rank)

/-! ### Numbers of scaled significands -/

def greatest : Nat := (Nat.pow 2 53 - 1) * Nat.pow 2 971

theorem isSome_ofRank? (negative : Bool) {rank : Nat} (h : rank < infiniteRank) :
    (ofRank? negative rank).isSome := by
  rw [ofRank?, dif_pos h]
  rfl

section Scaled

variable {significand : Nat} (negative : Bool)

/-- A word divided by a power of ten is a number. -/
theorem isSome_ofScaled?_negSucc (h : significand < wordBound) (e : Nat) :
    (ofScaled? negative significand (.negSucc e)).isSome := by
  have hword : rankOfNat wordBound < infiniteRank := by decide +kernel
  refine isSome_ofRank? negative (Nat.lt_of_le_of_lt (divideByTens_le _ _) ?_)
  exact Nat.lt_of_le_of_lt (rankOfNat_mono (Nat.le_of_lt h)) hword

/-- The powers of ten by which a word can be multiplied twice rounded beyond the greatest number,
although the product is below it. -/
def Treacherous (e : Nat) : Prop := e = 289 ∨ e = 290

/-- A word multiplied by a power of ten is a number, if the product is at most the greatest. -/
theorem rankMul_lt_infiniteRank {e : Nat} (h : significand < wordBound) (he : e ≤ maxPowerOfTen)
    (hle : significand * Nat.pow 10 e ≤ greatest)
    (hsafe : Treacherous e → significand ≤ Nat.pow 10 17) :
    rankMul (rankOfNat significand) (powerOfTen e) < infiniteRank := by
  have hsmall : rankMul (rankOfNat wordBound) (powerOfTen 288) < infiniteRank := by decide +kernel
  have hmiddle : rankMul (rankOfNat (Nat.pow 10 17)) (powerOfTen 290) < infiniteRank := by
    decide +kernel
  have hlarge : ∀ e < 309, 291 ≤ e →
      rankMul (rankOfNat (greatest / Nat.pow 10 e)) (powerOfTen e) < infiniteRank := by
    decide +kernel
  by_cases h288 : e ≤ 288
  · exact Nat.lt_of_le_of_lt
      (rankMul_mono (rankOfNat_mono (Nat.le_of_lt h)) (powerOfTen_mono h288)) hsmall
  by_cases h290 : e ≤ 290
  · exact Nat.lt_of_le_of_lt (rankMul_mono (rankOfNat_mono (hsafe (by unfold Treacherous; omega)))
      (powerOfTen_mono h290)) hmiddle
  · have hquot : significand ≤ greatest / Nat.pow 10 e :=
      (Nat.le_div_iff_mul_le (Nat.pow_pos (by decide))).2 hle
    have he : e < 309 := Nat.lt_succ_of_le he
    exact Nat.lt_of_le_of_lt (rankMul_mono (rankOfNat_mono hquot) (Nat.le_refl _))
      (hlarge e he (by omega))

theorem greatest_lt_pow {e : Nat} (h : maxPowerOfTen < e) : greatest < Nat.pow 10 e := by
  have he : 155 ≤ e - 154 := by
    rw [maxPowerOfTen] at h
    omega
  calc greatest < Nat.pow 10 154 * Nat.pow 10 155 := by decide +kernel
    _ ≤ Nat.pow 10 154 * Nat.pow 10 (e - 154) :=
      Nat.mul_le_mul_left _ (Nat.pow_le_pow_right (Nat.succ_pos 9) he)
    _ = Nat.pow 10 (154 + (e - 154)) := (Nat.pow_add 10 154 (e - 154)).symm
    _ = Nat.pow 10 e := congrArg (Nat.pow 10) (by omega)

theorem isSome_ofScaled?_ofNat {e : Nat} (h : significand < wordBound)
    (hle : significand * Nat.pow 10 e ≤ greatest)
    (hsafe : Treacherous e → significand ≤ Nat.pow 10 17) :
    (ofScaled? negative significand (.ofNat e)).isSome := by
  have hscaled : scaledRank? significand (.ofNat e) =
      if e ≤ maxPowerOfTen then some (rankMul (rankOfNat significand) (powerOfTen e))
      else if rankOfNat significand = 0 then some 0 else none := rfl
  rw [ofScaled?, hscaled]
  by_cases he : e ≤ maxPowerOfTen
  · rw [if_pos he, Option.bind_some]
    exact isSome_ofRank? negative (rankMul_lt_infiniteRank h he hle hsafe)
  · -- only zero can be multiplied by so great a power
    have hpow : greatest < Nat.pow 10 e := greatest_lt_pow (Nat.lt_of_not_le he)
    have hzero : significand = 0 := Nat.eq_zero_of_not_pos fun hpos =>
      absurd (Nat.le_trans (Nat.le_mul_of_pos_left _ hpos) hle) (Nat.not_le.2 hpow)
    have hrank : rankOfNat 0 = 0 := by decide +kernel
    rw [if_neg he, hzero, hrank, if_pos rfl, Option.bind_some]
    exact isSome_ofRank? negative (by decide +kernel)

end Scaled

end Excerpt.Binary64
