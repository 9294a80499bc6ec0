import GridSweep.Proofs.Number.Rounding

/-!
# The shortest digits round back

`shortest` gives digits that lie in the rounding interval of the value (`shortest_rounds`). Every
hit lies in it by the test that is made, so what has to be shown is that a hit comes up: with
seventeen digits the grid is finer than the interval is wide.
-/

namespace GridSweep

namespace Decimal

/-- The number that is written. -/
def value (d : Decimal) : ℚ := d.digits * 10 ^ d.exponent

theorem value_stripZeros (fuel : ℕ) (d : Decimal) : (stripZeros fuel d).value = d.value := by
  induction fuel generalizing d with
  | zero => rfl
  | succ fuel ih =>
    unfold stripZeros
    split
    · next h =>
      have hdigits : (d.digits : ℚ) = 10 * (d.digits / 10 : ℕ) := by
        exact_mod_cast (Nat.mul_div_cancel' (Nat.dvd_of_mod_eq_zero h.2)).symm
      rw [ih, value, value, zpow_add_one₀ (by norm_num), hdigits]
      ring
    · rfl

end Decimal

namespace RoundingInterval

open Binary64

variable {x : Binary64} {num den : ℕ} {unit : ℤ} {d : Decimal}

/-! ## Intervals of values -/

theorem den_pos (x : Binary64) : 0 < (ofBinary64 x).den := by
  simp [ofBinary64, Nat.shiftLeft_eq]

/-- The common denominator scales quarters of the last place. -/
theorem quarters (n : ℕ) (x : Binary64) :
    ((n * 1 <<< (x.exponent - 2).toNat : ℕ) : ℚ) / (ofBinary64 x).den = n / 4 * 2 ^ x.exponent := by
  have hscale := zpow_eq_toNat_div (b := 2) (by decide) (x.exponent - 2)
  rw [zpow_sub₀ (by norm_num), neg_sub] at hscale
  simp only [ofBinary64, Nat.one_shiftLeft]
  push_cast at hscale ⊢
  rw [mul_div_assoc, ← hscale]
  ring

theorem value_div (x : Binary64) :
    ((ofBinary64 x).value : ℚ) / (ofBinary64 x).den = x.absValue := by
  have h := quarters (4 * x.significand) x
  refine h.trans ?_
  rw [absValue]
  push_cast
  ring

theorem high_div (x : Binary64) :
    ((ofBinary64 x).high : ℚ) / (ofBinary64 x).den = (x.significand + 1 / 2) * 2 ^ x.exponent := by
  have h := quarters (4 * x.significand + 2) x
  refine h.trans ?_
  push_cast
  ring

theorem low_div (hx : x.significand ≠ 0) :
    ((ofBinary64 x).low : ℚ) / (ofBinary64 x).den =
      (x.significand - x.reachBelow) * 2 ^ x.exponent := by
  have hnarrow : (x.fraction == 0 && decide (1 < x.exponentField)) = decide x.IsNarrow := by
    rw [Bool.eq_iff_iff, Bool.and_eq_true, beq_iff_eq, decide_eq_true_eq, decide_eq_true_eq]
    exact Iff.rfl
  have h := quarters (if x.IsNarrow then 4 * x.significand - 1 else 4 * x.significand - 2) x
  simp only [ofBinary64, hnarrow, decide_eq_true_eq] at h ⊢
  refine h.trans ?_
  unfold reachBelow
  split
  · rw [Nat.cast_sub (by omega)]
    push_cast
    ring
  · rw [Nat.cast_sub (by omega)]
    push_cast
    ring

theorem contains_iff (hx : x.significand ≠ 0) (hden : 0 < den) :
    (ofBinary64 x).contains num den = true ↔ Rounds (num / den) x := by
  have hden₀ := den_pos x
  -- both sides compare the fraction with the two ends
  have hlow : (ofBinary64 x).low * den ≤ num * (ofBinary64 x).den ↔
      (x.significand - x.reachBelow) * 2 ^ x.exponent ≤ (num : ℚ) / den := by
    rw [← low_div hx, div_le_div_iff₀ (by positivity) (by positivity)]
    norm_cast
  have hhigh : num * (ofBinary64 x).den ≤ (ofBinary64 x).high * den ↔
      (num : ℚ) / den ≤ (x.significand + 1 / 2) * 2 ^ x.exponent := by
    rw [← high_div, div_le_div_iff₀ (by positivity) (by positivity)]
    norm_cast
  have hlow' : (ofBinary64 x).low * den < num * (ofBinary64 x).den ↔
      (x.significand - x.reachBelow) * 2 ^ x.exponent < (num : ℚ) / den := by
    rw [← low_div hx, div_lt_div_iff₀ (by positivity) (by positivity)]
    norm_cast
  have hhigh' : num * (ofBinary64 x).den < (ofBinary64 x).high * den ↔
      (num : ℚ) / den < (x.significand + 1 / 2) * 2 ^ x.exponent := by
    rw [← high_div, div_lt_div_iff₀ (by positivity) (by positivity)]
    norm_cast
  have hclosed : (ofBinary64 x).closed = true ↔ x.significand % 2 = 0 := by simp [ofBinary64]
  unfold contains
  split
  · next heven =>
    rw [Bool.and_eq_true, decide_eq_true_eq, decide_eq_true_eq, hlow, hhigh]
    refine ⟨fun h => ⟨h.1, h.2, fun hodd => ?_⟩, fun h => ⟨h.low, h.high⟩⟩
    have := hclosed.1 heven
    omega
  · next hodd =>
    rw [Bool.and_eq_true, decide_eq_true_eq, decide_eq_true_eq, hlow', hhigh']
    have hodd' : x.significand % 2 = 1 := by
      have := mt hclosed.2 hodd
      omega
    exact ⟨fun h => ⟨h.1.le, h.2.le, fun _ => ⟨h.1.ne, h.2.ne⟩⟩, fun h =>
      ⟨lt_of_le_of_ne h.low (h.odd hodd').1, lt_of_le_of_ne h.high (h.odd hodd').2⟩⟩

/-! ## Hits -/

theorem contains_grid_iff (hx : x.significand ≠ 0) (n : ℕ) :
    (ofBinary64 x).contains (n * 10 ^ unit.toNat) (10 ^ (-unit).toNat) = true ↔
      Rounds (Decimal.value ⟨n, unit⟩) x := by
  have hten := zpow_eq_toNat_div (b := 10) (by decide) unit
  rw [contains_iff hx (by positivity), Decimal.value]
  push_cast at hten ⊢
  rw [hten, mul_div_assoc]

theorem hit?_rounds (hx : x.significand ≠ 0) (h : (ofBinary64 x).hit? unit = some d) :
    Rounds d.value x := by
  unfold hit? at h
  simp only [Nat.pow_eq] at h
  split at h
  · next hup =>
    cases h
    exact (contains_grid_iff hx _).1 (Bool.and_eq_true_iff.1 hup).1
  split at h
  · next hdown =>
    cases h
    exact (contains_grid_iff hx _).1 hdown
  · cases h

theorem not_rounds_of_hit?_eq_none (hx : x.significand ≠ 0)
    (h : (ofBinary64 x).hit? unit = none) :
    let down := (ofBinary64 x).value * 10 ^ (-unit).toNat / ((ofBinary64 x).den * 10 ^ unit.toNat)
    ¬ Rounds (Decimal.value ⟨down, unit⟩) x ∧ ¬ Rounds (Decimal.value ⟨down + 1, unit⟩) x := by
  intro down
  unfold hit? at h
  simp only [Nat.pow_eq] at h
  rw [← contains_grid_iff hx, ← contains_grid_iff hx]
  split at h
  · cases h
  next hup =>
  split at h
  · cases h
  next hdown =>
  refine ⟨hdown, fun hcontains => hup ?_⟩
  rw [Bool.and_eq_true]
  exact ⟨hcontains, by simp [hdown]⟩

/-- A grid that is finer than the interval is wide has a hit. -/
theorem hit?_ne_none (hx : x.significand ≠ 0)
    (h : (10 : ℚ) ^ unit < (1 / 2 + x.reachBelow) * 2 ^ x.exponent) :
    (ofBinary64 x).hit? unit ≠ none := by
  intro hnone
  have hten : (0 : ℚ) < 10 ^ unit := by positivity
  have hpos := two_zpow_pos x.exponent
  have hreach := x.reachBelow_pos
  set num := (ofBinary64 x).value * 10 ^ (-unit).toNat with hnum
  set den := (ofBinary64 x).den * 10 ^ unit.toNat with hden
  have hden₀ : 0 < den := Nat.mul_pos (den_pos x) (by positivity)
  -- the value lies between its two neighbours on the grid
  have hvalue : (num : ℚ) / den = x.absValue / 10 ^ unit := by
    rw [hnum, hden, mul_pow_div (by decide), value_div, Nat.cast_ofNat]
  have hbelow : (num / den : ℕ) * 10 ^ unit ≤ x.absValue := by
    rw [← le_div_iff₀ hten, ← hvalue, le_div_iff₀ (by positivity)]
    exact_mod_cast Nat.div_mul_le_self num den
  have habove : x.absValue < (num / den + 1 : ℕ) * 10 ^ unit := by
    rw [← div_lt_iff₀ hten, ← hvalue, div_lt_iff₀ (by positivity)]
    exact_mod_cast Nat.lt_mul_of_div_lt (Nat.lt_succ_self _) hden₀
  -- neither of them rounds to the value, so the interval fits between them
  obtain ⟨hdown, hup⟩ := not_rounds_of_hit?_eq_none hx hnone
  have hlow : (num / den : ℕ) * (10 : ℚ) ^ unit ≤
      (x.significand - x.reachBelow) * 2 ^ x.exponent := by
    by_contra hlt
    exact hdown (.of_lt (lt_of_not_ge hlt) (hbelow.trans_lt x.absValue_lt))
  have hhigh : (x.significand + 1 / 2) * 2 ^ x.exponent ≤
      (num / den + 1 : ℕ) * (10 : ℚ) ^ unit := by
    by_contra hlt
    exact hup (.of_lt (x.lt_absValue.trans habove) (lt_of_not_ge hlt))
  push_cast at hhigh
  linarith

/-! ## The search -/

theorem search_hits (i : RoundingInterval) (n : ℕ) (h : ∃ k < n, i.hit? (unit - k) ≠ none) :
    ∃ u, i.hit? u = some (i.search n unit) := by
  induction n generalizing unit with
  | zero => simp at h
  | succ n ih =>
    unfold search
    cases hhit : i.hit? unit with
    | some d => exact ⟨unit, hhit⟩
    | none =>
      refine ih ?_
      obtain ⟨k, hk, hne⟩ := h
      cases k with
      | zero => exact absurd hhit (by simpa using hne)
      | succ k =>
        refine ⟨k, by omega, ?_⟩
        rwa [show unit - 1 - (k : ℤ) = unit - (k + 1 : ℕ) by omega]

/-- The estimate of a decimal exponent is off by one at most. -/
theorem ten_zpow_le_two_zpow {b : ℤ} (hlow : -1100 < b) (hhigh : b < 1100) :
    (10 : ℚ) ^ (b * 30103 / 100000 - 1) ≤ 2 ^ b := by
  have hpositive : ∀ n < 1100, 10 ^ (n * 30103 / 100000) ≤ 10 * 2 ^ n := by decide +kernel
  have hnegative : ∀ n < 1100, 2 ^ n ≤ 10 ^ ((n * 30103 + 99999) / 100000 + 1) := by decide +kernel
  rcases le_total 0 b with hb | hb
  · obtain ⟨n, rfl⟩ := Int.eq_ofNat_of_zero_le hb
    have h : ((10 : ℚ)) ^ (n * 30103 / 100000) ≤ 10 * 2 ^ n := by
      exact_mod_cast hpositive n (by omega)
    rw [zpow_sub_one₀ (by norm_num), ← div_eq_mul_inv, div_le_iff₀ (by norm_num), zpow_natCast,
      mul_comm _ (10 : ℚ)]
    exact_mod_cast h
  · obtain ⟨n, hn⟩ := Int.eq_ofNat_of_zero_le (neg_nonneg.2 hb)
    have h : ((2 : ℚ)) ^ n ≤ 10 ^ ((n * 30103 + 99999) / 100000 + 1) := by
      exact_mod_cast hnegative n (by omega)
    rw [show b * 30103 / 100000 - 1 = -(((n * 30103 + 99999) / 100000 + 1 : ℕ) : ℤ) by omega,
      show b = -(n : ℤ) by omega, zpow_neg, zpow_neg, zpow_natCast, zpow_natCast]
    gcongr

/-- The binary exponent that the estimate starts from. -/
theorem log2_value_spec (hx : x.significand ≠ 0) :
    let bits : ℤ := (ofBinary64 x).value.log2 - (ofBinary64 x).den.log2
    (2 : ℚ) ^ bits ≤ x.absValue ∧ x.absValue < 2 ^ (bits + 1) := by
  intro bits
  have hden : ((ofBinary64 x).den : ℚ) = 2 ^ (ofBinary64 x).den.log2 := by
    simp [ofBinary64, Nat.one_shiftLeft]
  have hvalue : (ofBinary64 x).value ≠ 0 := by
    simp [ofBinary64, Nat.one_shiftLeft, hx]
  have hdiv (n : ℤ) : (2 : ℚ) ^ (n - (ofBinary64 x).den.log2) = 2 ^ n / (ofBinary64 x).den := by
    rw [zpow_sub₀ (by norm_num), hden, zpow_natCast]
  rw [← value_div, show bits + 1 = ((ofBinary64 x).value.log2 + 1 : ℕ) - (ofBinary64 x).den.log2 by
    push_cast; ring, hdiv, hdiv, zpow_natCast, zpow_natCast]
  have hpos := den_pos x
  constructor
  · gcongr
    exact_mod_cast Nat.log2_self_le hvalue
  · gcongr
    exact_mod_cast Nat.lt_log2_self

theorem floorLog10_le (hfinite : x.IsFinite) (hx : x.significand ≠ 0) :
    (10 : ℚ) ^ (ofBinary64 x).floorLog10 ≤ x.absValue := by
  have hreaches (e : ℤ) :
      (ofBinary64 x).den * 10 ^ e.toNat ≤ (ofBinary64 x).value * 10 ^ (-e).toNat ↔
        (10 : ℚ) ^ e ≤ x.absValue := by
    rw [mul_pow_le_iff (by decide) (den_pos x), value_div, Nat.cast_ofNat]
  unfold floorLog10
  simp only [Nat.pow_eq, decide_eq_true_eq, hreaches]
  split
  · assumption
  split
  · assumption
  -- the estimate is too large, and one less is not
  obtain ⟨hlow, hhigh⟩ := log2_value_spec hx
  have := two_zpow_lt_iff.1 (hlow.trans_lt x.rounds_absValue.lt)
  have := two_zpow_lt_iff.1 ((x.rounds_absValue.ge hx).trans_lt hhigh)
  have := exponent_le hfinite
  exact (ten_zpow_le_two_zpow (by omega) (by omega)).trans hlow

end RoundingInterval

namespace Binary64

open RoundingInterval

variable {x : Binary64}

theorem isZero_iff (x : Binary64) : x.isZero = true ↔ x.significand = 0 := by
  simp only [isZero, significand, Bool.and_eq_true, beq_iff_eq, Nat.one_shiftLeft]
  split <;> simp_all

/-- Seventeen digits make a grid that is finer than the interval. -/
theorem ten_zpow_lt {e : ℤ} (h : (10 : ℚ) ^ e ≤ x.absValue) :
    (10 : ℚ) ^ (e - 16) < (1 / 2 + x.reachBelow) * 2 ^ x.exponent := by
  have hpos := two_zpow_pos x.exponent
  have hsig : (x.significand : ℚ) < (1 / 2 + x.reachBelow) * 10 ^ (16 : ℤ) := by
    unfold reachBelow
    split
    · next hnarrow =>
      rw [significand_of_narrow hnarrow]
      norm_num
    · have : (x.significand : ℚ) < 2 ^ 53 := by exact_mod_cast x.significand_lt
      norm_num at this ⊢
      linarith
  rw [zpow_sub₀ (by norm_num), div_lt_iff₀ (by positivity)]
  calc (10 : ℚ) ^ e ≤ x.significand * 2 ^ x.exponent := h
    _ < (1 / 2 + x.reachBelow) * 10 ^ (16 : ℤ) * 2 ^ x.exponent := by gcongr
    _ = _ := by ring

/-- The shortest digits of a value round to it. -/
theorem shortest_rounds (hfinite : x.IsFinite) (hx : x.significand ≠ 0) :
    Rounds x.shortest.value x := by
  unfold shortest
  rw [if_neg (mt (isZero_iff x).1 hx), Decimal.value_stripZeros]
  have hgrid := hit?_ne_none hx (ten_zpow_lt (floorLog10_le hfinite hx))
  obtain ⟨unit, hhit⟩ := search_hits (ofBinary64 x) 17 ⟨16, by decide, hgrid⟩
  exact hit?_rounds hx hhit

end Binary64

end GridSweep
