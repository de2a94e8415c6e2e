import Excerpt.Binary64.Shortest
import Excerpt.Proofs.Rounding

/-!
# The shortest decimal of a number

Seventeen digits are enough to tell a number from its neighbours: the multiples of a small enough
power of ten lie closer together than the middles to the neighbours.

* `atLeastPower_leadingExponent` — the leading exponent is that of the first digit;
* `isSome_nearestOnGrid?_of_fine` — a grid fine enough has a decimal that rounds to the number;
* `exists_shortest` — the shortest decimal is one of a grid, without zeros at its end;
* `Compact`, `compact_shortest` — it has at most seventeen digits and is at most the greatest number.
-/

namespace Excerpt.Binary64

/-! ### Decimals -/

theorem ten_pow_pos (n : Nat) : 0 < Nat.pow 10 n := Nat.pow_pos (Nat.succ_pos 9)

theorem ten_pow_add (m n : Nat) : Nat.pow 10 (m + n) = Nat.pow 10 m * Nat.pow 10 n :=
  Nat.pow_add 10 m n

namespace Decimal

theorem denominator_pos (d : Decimal) : 0 < d.denominator := ten_pow_pos _

theorem numerator_mk (digits : Nat) (e : Int) :
    (⟨digits, e⟩ : Decimal).numerator = digits * (⟨1, e⟩ : Decimal).numerator := by
  simp only [numerator, Nat.one_mul, Nat.mul_assoc]

theorem numerator_one_pos (e : Int) : 0 < (⟨1, e⟩ : Decimal).numerator :=
  Nat.mul_pos (Nat.mul_pos Nat.one_pos (ten_pow_pos _)) (Nat.mul_pos Nat.two_pos unitsOfOne_pos)

/-- A power of ten against one that is `n` places greater. -/
theorem numerator_mul_pow (e : Int) (n : Nat) :
    (⟨1, e⟩ : Decimal).numerator * Nat.pow 10 n * (⟨1, e + n⟩ : Decimal).denominator =
      (⟨1, e + n⟩ : Decimal).numerator * (⟨1, e⟩ : Decimal).denominator := by
  have hexp : e.toNat + n + (-(e + n)).toNat = (e + n).toNat + (-e).toNat := by omega
  have hpow : Nat.pow 10 e.toNat * Nat.pow 10 n * Nat.pow 10 (-(e + n)).toNat =
      Nat.pow 10 (e + n).toNat * Nat.pow 10 (-e).toNat := by
    rw [← ten_pow_add, ← ten_pow_add, ← ten_pow_add, hexp]
  simp only [numerator, denominator, Nat.one_mul]
  rw [Nat.mul_right_comm _ (2 * unitsOfOne), Nat.mul_right_comm _ (2 * unitsOfOne), hpow,
    Nat.mul_right_comm]

end Decimal

/-! ### The leading exponent -/

theorem atLeastPower_iff {rank : Nat} {e : Int} :
    atLeastPower rank e = true ↔
      (⟨1, e⟩ : Decimal).numerator ≤ 2 * ulps rank * (⟨1, e⟩ : Decimal).denominator := by
  simp only [atLeastPower, decide_eq_true_iff]

/-- The guess is at most one too great, and at most one too small. -/
def IsClose (log : Nat) : Prop :=
  (⟨1, leadingGuess log - 1⟩ : Decimal).numerator ≤
      2 * Nat.pow 2 log * (⟨1, leadingGuess log - 1⟩ : Decimal).denominator ∧
    2 * Nat.pow 2 (log + 1) * (⟨1, leadingGuess log + 2⟩ : Decimal).denominator ≤
      (⟨1, leadingGuess log + 2⟩ : Decimal).numerator

instance (log : Nat) : Decidable (IsClose log) := inferInstanceAs (Decidable (_ ∧ _))

theorem isClose_of_lt {log : Nat} (h : log < 2098) : IsClose log := by
  have hall : ((List.range 2098).all fun log => decide (IsClose log)) = true := by decide +kernel
  exact of_decide_eq_true (List.all_eq_true.1 hall log (List.mem_range.2 h))

section Rank

variable {rank : Nat}

theorem ulps_pos (hr : 0 < rank) : 0 < ulps rank :=
  Nat.lt_of_lt_of_le (by decide +kernel : 0 < ulps 1) (ulps_mono hr)

theorem ulps_le_greatest (hf : rank < infiniteRank) : ulps rank ≤ greatest * unitsOfOne := by
  have hlast : ulps (infiniteRank - 1) ≤ greatest * unitsOfOne := by decide +kernel
  exact Nat.le_trans (ulps_mono (Nat.le_sub_one_of_lt hf)) hlast

theorem isClose_log2_ulps (hf : rank < infiniteRank) :
    IsClose (ulps rank).log2 := by
  have hbound : (greatest * unitsOfOne).log2 < 2098 := by decide +kernel
  exact isClose_of_lt (Nat.lt_of_le_of_lt (log2_le_log2 (ulps_le_greatest hf)) hbound)

theorem atLeastPower_guess_sub_one (hr : 0 < rank) (hf : rank < infiniteRank) :
    atLeastPower rank (leadingGuess (ulps rank).log2 - 1) = true := by
  have hlog : Nat.pow 2 (ulps rank).log2 ≤ ulps rank :=
    Nat.log2_self_le (Nat.ne_of_gt (ulps_pos hr))
  refine atLeastPower_iff.2 (Nat.le_trans (isClose_log2_ulps hf).1 ?_)
  exact Nat.mul_le_mul_right _ (Nat.mul_le_mul_left 2 hlog)

theorem atLeastPower_guess_add_two (hf : rank < infiniteRank) :
    atLeastPower rank (leadingGuess (ulps rank).log2 + 2) = false := by
  have hlog : ulps rank < Nat.pow 2 ((ulps rank).log2 + 1) := Nat.lt_log2_self
  refine Bool.eq_false_iff.2 fun h => ?_
  have hle := Nat.le_trans (isClose_log2_ulps hf).2 (atLeastPower_iff.1 h)
  have hle := Nat.le_of_mul_le_mul_right hle (Decimal.denominator_pos _)
  omega

/-- **The leading exponent** is that of the greatest power of ten that is at most the number. -/
theorem atLeastPower_leadingExponent (hr : 0 < rank) (hf : rank < infiniteRank) :
    atLeastPower rank (leadingExponent rank) = true ∧
      atLeastPower rank (leadingExponent rank + 1) = false := by
  have hlow := atLeastPower_guess_sub_one hr hf
  have hhigh := atLeastPower_guess_add_two hf
  unfold leadingExponent
  generalize leadingGuess (ulps rank).log2 = g at hlow hhigh ⊢
  have hnext : g + 1 + 1 = g + 2 := by omega
  dsimp only
  split
  · next h => exact ⟨h, hnext ▸ hhigh⟩
  · next h =>
    split
    · next h' => exact ⟨h', by simpa using h⟩
    · next h' => exact ⟨hlow, by simpa using h'⟩

/-! ### Grids -/

/-- The step from a number to the next is no smaller than the step before, and the number has at most
53 binary digits in multiples of it. -/
theorem exists_step (rank : Nat) :
    ∃ p, 0 < p ∧ ulps (rank + 1) = ulps rank + p ∧ ulps (rank + 1) ≤ 2 * binade * p ∧
      ulps (rank + 1) + p ≤ ulps (rank + 2) := by
  rcases rank_cases rank with h | ⟨q, m, hm, rfl⟩
  · refine ⟨1, Nat.one_pos, ?_, ?_, ulps_lt_succ (rank + 1)⟩
    · rw [ulps_of_le h, ulps_of_le (Nat.le_of_lt h)]
    · rw [ulps_of_le h]
      omega
  · have hthis : ulps ((q + 1) * binade + m) = (binade + m) * Nat.pow 2 q :=
      ulps_add q (Nat.le_of_lt hm)
    have hsucc : ulps ((q + 1) * binade + m + 1) = (binade + m + 1) * Nat.pow 2 q := by
      have h := ulps_add q (Nat.succ_le_of_lt hm)
      simpa only [Nat.succ_eq_add_one, ← Nat.add_assoc] using h
    have hnext : (binade + m + 2) * Nat.pow 2 q ≤ ulps ((q + 1) * binade + m + 2) := by
      rcases Nat.lt_or_eq_of_le (Nat.succ_le_of_lt hm) with hlt | heq
      · have h := ulps_add q (Nat.succ_le_of_lt hlt)
        simp only [Nat.succ_eq_add_one, ← Nat.add_assoc] at h
        exact Nat.le_of_eq h.symm
      · -- the number is the first of the next binade
        have hfirst : ulps ((q + 1 + 1) * binade + 1) = (binade + 1) * Nat.pow 2 (q + 1) :=
          ulps_add (q + 1) (by decide)
        have hrank : (q + 1) * binade + m + 2 = (q + 1 + 1) * binade + 1 := by
          rw [Nat.succ_mul (q + 1), ← heq]
          omega
        rw [hrank, hfirst, two_pow_succ, ← Nat.mul_two, ← Nat.mul_assoc, Nat.mul_right_comm]
        exact Nat.mul_le_mul_right _ (by omega)
    refine ⟨Nat.pow 2 q, two_pow_pos q, ?_, ?_, ?_⟩
    · exact hsucc.trans ((Nat.succ_mul _ _).trans (congrArg (· + Nat.pow 2 q) hthis.symm))
    · exact hsucc ▸ Nat.mul_le_mul_right _ (by omega)
    · calc ulps ((q + 1) * binade + m + 1) + Nat.pow 2 q
          = (binade + m + 1 + 1) * Nat.pow 2 q := by rw [Nat.succ_mul (binade + m + 1), hsucc]
        _ ≤ ulps ((q + 1) * binade + m + 2) := hnext

/-- The interval of the reals that round to a number is wider than a certain part of the number. -/
theorem gap (rank : Nat) :
    2 * ulps (rank + 1) + Nat.pow 10 16 * ulps rank < Nat.pow 10 16 * ulps (rank + 2) := by
  obtain ⟨p, hp, hstep, hdigits, hnext⟩ := exists_step rank
  have hten : Nat.pow 10 16 = 10000000000000000 := rfl
  rw [binade_eq] at hdigits
  rw [hten]
  omega

/-- A multiple of a power of ten between the middles to both neighbours rounds to the number. -/
theorem readsBack_of_between {digits : Nat} {e : Int}
    (hlow : (ulps (rank - 1) + ulps rank) * (⟨1, e⟩ : Decimal).denominator <
      digits * (⟨1, e⟩ : Decimal).numerator)
    (hhigh : digits * (⟨1, e⟩ : Decimal).numerator <
      (ulps rank + ulps (rank + 1)) * (⟨1, e⟩ : Decimal).denominator) :
    readsBack rank ⟨digits, e⟩ = true := by
  rw [← Decimal.numerator_mk] at hlow hhigh
  unfold readsBack interval
  dsimp only
  split
  · exact Bool.and_eq_true_iff.2 ⟨decide_eq_true (Nat.le_of_lt hlow), decide_eq_true (Nat.le_of_lt hhigh)⟩
  · exact Bool.and_eq_true_iff.2 ⟨decide_eq_true hlow, decide_eq_true hhigh⟩

theorem bounds_of_readsBack {digits : Nat} {e : Int} (h : readsBack rank ⟨digits, e⟩ = true) :
    (ulps (rank - 1) + ulps rank) * (⟨1, e⟩ : Decimal).denominator ≤
        digits * (⟨1, e⟩ : Decimal).numerator ∧
      digits * (⟨1, e⟩ : Decimal).numerator ≤
        (ulps rank + ulps (rank + 1)) * (⟨1, e⟩ : Decimal).denominator := by
  rw [← Decimal.numerator_mk]
  unfold readsBack interval at h
  dsimp only at h
  split at h
  · obtain ⟨hlow, hhigh⟩ := Bool.and_eq_true_iff.1 h
    exact ⟨of_decide_eq_true hlow, of_decide_eq_true hhigh⟩
  · obtain ⟨hlow, hhigh⟩ := Bool.and_eq_true_iff.1 h
    exact ⟨Nat.le_of_lt (of_decide_eq_true hlow), Nat.le_of_lt (of_decide_eq_true hhigh)⟩

/-- The greatest multiple of a power of ten that is at most the number. -/
def below (rank : Nat) (e : Int) : Nat :=
  2 * ulps rank * (⟨1, e⟩ : Decimal).denominator / (⟨1, e⟩ : Decimal).numerator

theorem below_mul_le (rank : Nat) (e : Int) :
    below rank e * (⟨1, e⟩ : Decimal).numerator ≤ 2 * ulps rank * (⟨1, e⟩ : Decimal).denominator :=
  Nat.div_mul_le_self _ _

theorem lt_succ_below_mul (rank : Nat) (e : Int) :
    2 * ulps rank * (⟨1, e⟩ : Decimal).denominator <
      (below rank e + 1) * (⟨1, e⟩ : Decimal).numerator := by
  have hmod := Nat.lt_div_mul_add (a := 2 * ulps rank * (⟨1, e⟩ : Decimal).denominator)
    (Decimal.numerator_one_pos e)
  rwa [Nat.succ_mul (below rank e)]

/-- What a grid gives rounds to the number and is one of the two multiples around it. -/
theorem of_nearestOnGrid? {e : Int} {d : Decimal} (h : nearestOnGrid? rank e = some d) :
    readsBack rank d = true ∧ d.exponent = e ∧ d.digits ≤ below rank e + 1 := by
  unfold nearestOnGrid? at h
  dsimp only at h
  rw [← below] at h
  have hlower : readsBack rank ⟨below rank e, e⟩ = true → d = ⟨below rank e, e⟩ →
      readsBack rank d = true ∧ d.exponent = e ∧ d.digits ≤ below rank e + 1 := by
    rintro hfits rfl
    exact ⟨hfits, rfl, Nat.le_succ _⟩
  have hupper : readsBack rank ⟨below rank e + 1, e⟩ = true → d = ⟨below rank e + 1, e⟩ →
      readsBack rank d = true ∧ d.exponent = e ∧ d.digits ≤ below rank e + 1 := by
    rintro hfits rfl
    exact ⟨hfits, rfl, Nat.le_refl _⟩
  split at h
  · next hboth =>
    obtain ⟨hl, hu⟩ := Bool.and_eq_true_iff.1 hboth
    split at h
    · exact hlower hl (Option.some.inj h).symm
    · exact hupper hu (Option.some.inj h).symm
  · split at h
    · next hl => exact hlower hl (Option.some.inj h).symm
    · split at h
      · next hu => exact hupper hu (Option.some.inj h).symm
      · cases h

/-- Where one of the two multiples around the number rounds to it, the grid gives one. -/
theorem isSome_nearestOnGrid? {e : Int}
    (h : readsBack rank ⟨below rank e, e⟩ = true ∨ readsBack rank ⟨below rank e + 1, e⟩ = true) :
    (nearestOnGrid? rank e).isSome := by
  unfold nearestOnGrid?
  dsimp only
  rw [← below]
  split
  · split <;> rfl
  · split
    · rfl
    · next hl =>
      rcases h with h | h
      · exact absurd h hl
      · rw [if_pos h]
        rfl

/-- A grid fine enough has a decimal that rounds to the number. -/
theorem isSome_nearestOnGrid?_of_fine {e : Int} (hr : 0 < rank)
    (h : (⟨1, e⟩ : Decimal).numerator * Nat.pow 10 16 ≤
      2 * ulps rank * (⟨1, e⟩ : Decimal).denominator) : (nearestOnGrid? rank e).isSome := by
  obtain ⟨rank, rfl⟩ : ∃ r, rank = r + 1 := ⟨rank - 1, by omega⟩
  have hle := below_mul_le (rank + 1) e
  have hlt := lt_succ_below_mul (rank + 1) e
  have hden := Decimal.denominator_pos ⟨1, e⟩
  have hgap := Nat.mul_lt_mul_of_pos_right (gap rank) hden
  have hlow := Nat.mul_lt_mul_of_pos_right (ulps_lt_succ rank) hden
  have hhigh := Nat.mul_lt_mul_of_pos_right (ulps_lt_succ (rank + 1)) hden
  refine isSome_nearestOnGrid? ?_
  by_cases hlower : (ulps rank + ulps (rank + 1)) * (⟨1, e⟩ : Decimal).denominator <
      below (rank + 1) e * (⟨1, e⟩ : Decimal).numerator
  · refine .inl (readsBack_of_between hlower (Nat.lt_of_le_of_lt hle ?_))
    rw [Nat.two_mul, Nat.add_mul, Nat.add_mul]
    exact Nat.add_lt_add_left hhigh _
  by_cases hupper : (below (rank + 1) e + 1) * (⟨1, e⟩ : Decimal).numerator <
      (ulps (rank + 1) + ulps (rank + 2)) * (⟨1, e⟩ : Decimal).denominator
  · refine .inr (readsBack_of_between (Nat.lt_of_le_of_lt ?_ hlt) hupper)
    rw [Nat.two_mul, Nat.add_mul, Nat.add_mul]
    exact Nat.add_le_add_right (Nat.le_of_lt hlow) _
  · -- the two multiples would be further apart than the two middles
    have hlower := Nat.le_of_not_lt hlower
    have hupper := Nat.le_of_not_lt hupper
    rw [Nat.add_mul] at hlower hupper hgap
    rw [Nat.succ_mul (below (rank + 1) e)] at hupper
    rw [Nat.mul_assoc (Nat.pow 10 16), Nat.mul_assoc (Nat.pow 10 16)] at hgap
    have hten : Nat.pow 10 16 = 10000000000000000 := rfl
    rw [hten] at h hgap
    omega

section Leading

variable {e : Int} {n : Nat}

/-- A grid that is `n` places behind the leading exponent, against the number. -/
theorem numerator_mul_pow_le (hr : 0 < rank) (hf : rank < infiniteRank)
    (he : e + n = leadingExponent rank) :
    (⟨1, e⟩ : Decimal).numerator * Nat.pow 10 n ≤
      2 * ulps rank * (⟨1, e⟩ : Decimal).denominator := by
  have hlead := atLeastPower_iff.1 (he ▸ (atLeastPower_leadingExponent hr hf).1)
  refine Nat.le_of_mul_le_mul_right ?_ (Decimal.denominator_pos ⟨1, e + n⟩)
  rw [Decimal.numerator_mul_pow, Nat.mul_right_comm]
  exact Nat.mul_le_mul_right _ hlead

theorem lt_numerator_mul_pow (hr : 0 < rank) (hf : rank < infiniteRank)
    (he : e + n = leadingExponent rank) :
    2 * ulps rank * (⟨1, e⟩ : Decimal).denominator <
      (⟨1, e⟩ : Decimal).numerator * Nat.pow 10 (n + 1) := by
  have he : leadingExponent rank + 1 = e + (n + 1 : Nat) := by omega
  have hlead := (atLeastPower_leadingExponent hr hf).2
  rw [he] at hlead
  have hlead := Nat.lt_of_not_le (mt atLeastPower_iff.2 (Bool.eq_false_iff.1 hlead))
  refine Nat.lt_of_mul_lt_mul_right (a := (⟨1, e + (n + 1 : Nat)⟩ : Decimal).denominator) ?_
  rw [Decimal.numerator_mul_pow, Nat.mul_right_comm]
  exact Nat.mul_lt_mul_of_pos_right hlead (Decimal.denominator_pos _)

end Leading

/-- **Seventeen digits are enough.** The shortest decimal is one of a grid of at most that many. -/
theorem exists_shortest (hr : 0 < rank) (hf : rank < infiniteRank) :
    ∃ d : Decimal, shortest rank = d.strip ∧ readsBack rank d = true ∧ d.digits ≤ Nat.pow 10 17 := by
  have hsome : ((List.range maxDigits).findSome? fun (n : Nat) =>
      nearestOnGrid? rank (leadingExponent rank - n)).isSome := by
    refine List.findSome?_isSome_iff.2 ⟨16, by decide, ?_⟩
    exact isSome_nearestOnGrid?_of_fine hr (numerator_mul_pow_le hr hf (by omega))
  obtain ⟨d, hd⟩ := Option.isSome_iff_exists.1 hsome
  obtain ⟨n, hn, hgrid⟩ := List.exists_of_findSome?_eq_some hd
  obtain ⟨hreads, hexp, hdigits⟩ := of_nearestOnGrid? hgrid
  refine ⟨d, ?_, hreads, ?_⟩
  · rw [shortest, hd, Option.getD_some]
  · have hlt := lt_numerator_mul_pow hr hf (e := leadingExponent rank - n) (n := n) (by omega)
    have hle := Nat.lt_of_le_of_lt (below_mul_le rank (leadingExponent rank - n)) hlt
    rw [Nat.mul_comm] at hle
    have hle := Nat.lt_of_mul_lt_mul_left hle
    have hpow : Nat.pow 10 (n + 1) ≤ Nat.pow 10 17 :=
      Nat.pow_le_pow_right (Nat.succ_pos 9) (List.mem_range.1 hn)
    omega

end Rank

/-! ### Zeros at the end -/

theorem Decimal.stripFrom_eq (fuel : Nat) (d : Decimal) :
    ∃ j : Nat, d.digits = (stripFrom fuel d).digits * Nat.pow 10 j ∧
      (stripFrom fuel d).exponent = d.exponent + j := by
  induction fuel generalizing d with
  | zero => exact ⟨0, (Nat.mul_one _).symm, (Int.add_zero _).symm⟩
  | succ fuel ih =>
    rw [stripFrom]
    split
    · next h =>
      obtain ⟨j, hdigits, hexp⟩ := ih ⟨d.digits / 10, d.exponent + 1⟩
      refine ⟨j + 1, ?_, ?_⟩
      · have hdvd : d.digits = d.digits / 10 * 10 := by omega
        rw [ten_pow_add, ← Nat.mul_assoc, ← hdigits]
        exact hdvd
      · rw [hexp]
        dsimp only
        omega
    · exact ⟨0, (Nat.mul_one _).symm, (Int.add_zero _).symm⟩

/-- Without the zeros at its end a decimal is the same number. -/
theorem Decimal.strip_eq (d : Decimal) :
    ∃ j : Nat, d.digits = d.strip.digits * Nat.pow 10 j ∧ d.strip.exponent = d.exponent + j := by
  rw [strip]
  split
  · exact ⟨0, (Nat.mul_one _).symm, (Int.add_zero _).symm⟩
  · exact stripFrom_eq _ d

/-! ### The shortest decimal -/

/-- A decimal has at most seventeen digits, or is the first number behind these, and is at most the
greatest number. -/
structure Compact (d : Decimal) : Prop where
  pos : 0 < d.digits
  digits_le : d.digits ≤ Nat.pow 10 17
  value_le : ∀ e : Nat, d.exponent = e → d.digits * Nat.pow 10 e ≤ greatest

theorem Compact.strip {d : Decimal} (h : Compact d) : Compact d.strip := by
  obtain ⟨j, hdigits, hexp⟩ := d.strip_eq
  have hpow := ten_pow_pos j
  have hle : d.strip.digits ≤ d.digits := hdigits ▸ Nat.le_mul_of_pos_right _ hpow
  refine ⟨?_, Nat.le_trans hle h.digits_le, fun e he => ?_⟩
  · refine Nat.pos_of_ne_zero fun hzero => ?_
    rw [hzero, Nat.zero_mul] at hdigits
    exact absurd h.pos (by omega)
  · rcases Int.le_total 0 d.exponent with hsign | hsign
    · obtain ⟨i, hi⟩ := Int.eq_ofNat_of_zero_le hsign
      obtain rfl : e = j + i := by omega
      have hvalue := h.value_le i hi
      rw [hdigits, Nat.mul_assoc, ← ten_pow_add] at hvalue
      exact hvalue
    · -- the decimal is at most the number of its digits
      have hlarge : Nat.pow 10 17 ≤ greatest := by decide +kernel
      have hej : e ≤ j := by omega
      calc d.strip.digits * Nat.pow 10 e ≤ d.strip.digits * Nat.pow 10 j :=
            Nat.mul_le_mul_left _ (Nat.pow_le_pow_right (Nat.succ_pos 9) hej)
        _ = d.digits := hdigits.symm
        _ ≤ greatest := Nat.le_trans h.digits_le hlarge

/-- A decimal that rounds to a number before the greatest is at most the greatest. -/
theorem value_le_of_readsBack {rank digits e : Nat} (hf : rank + 1 < infiniteRank)
    (h : readsBack rank ⟨digits, e⟩ = true) : digits * Nat.pow 10 e ≤ greatest := by
  have hvalue := (bounds_of_readsBack h).2
  have hden : (⟨1, e⟩ : Decimal).denominator = 1 := by simp [Decimal.denominator]
  have hnum : (⟨1, e⟩ : Decimal).numerator = Nat.pow 10 e * 2 * unitsOfOne := by
    simp only [Decimal.numerator, Int.toNat_natCast, Nat.one_mul, Nat.mul_assoc]
  have hthis := ulps_le_greatest (Nat.lt_of_succ_lt hf)
  have hnext := ulps_le_greatest hf
  rw [hden, hnum, Nat.mul_one, ← Nat.mul_assoc, ← Nat.mul_assoc, Nat.mul_right_comm _ 2] at hvalue
  have hunits : digits * Nat.pow 10 e * unitsOfOne ≤ greatest * unitsOfOne := by omega
  exact Nat.le_of_mul_le_mul_right hunits unitsOfOne_pos

/-- **The shortest decimal is compact.** -/
theorem compact_shortest {rank : Nat} (hr : 0 < rank) (hf : rank < infiniteRank) :
    Compact (shortest rank) := by
  rcases Nat.lt_or_eq_of_le (Nat.succ_le_of_lt hf) with hnext | hlast
  · obtain ⟨⟨digits, e⟩, hshortest, hreads, hdigits⟩ := exists_shortest hr hf
    rw [hshortest]
    refine Compact.strip ⟨Nat.pos_of_ne_zero fun hzero => ?_, hdigits, fun i hi => ?_⟩
    · -- zero does not round to a number above it
      have hlow := (bounds_of_readsBack hreads).1
      have hpos := Nat.mul_pos (Nat.add_pos_right (ulps (rank - 1)) (ulps_pos hr))
        (Decimal.denominator_pos ⟨1, e⟩)
      have hzero : digits = 0 := hzero
      rw [hzero, Nat.zero_mul] at hlow
      omega
    · have hi : e = i := hi
      exact value_le_of_readsBack hnext (hi ▸ hreads)
  · -- between the greatest number and the middle behind it there are decimals of seventeen digits
    have hgreatest : shortest (infiniteRank - 1) = ⟨17976931348623157, 292⟩ := by decide +kernel
    have hrank : rank = infiniteRank - 1 := by omega
    rw [hrank, hgreatest]
    refine ⟨by decide, by decide +kernel, fun e he => ?_⟩
    have he : e = 292 := by
      have he : (292 : Int) = e := he
      omega
    rw [he]
    decide +kernel

end Excerpt.Binary64
