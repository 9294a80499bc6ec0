import GridSweep.Proofs.Number.Value

/-!
# Rounding a fraction

The numbers that round to a positive finite value form an interval around it, given by `Rounds`: it
reaches half way to the neighbours, and its ends belong to it if the significand is even. `ofRatio`
and `ofDecimal` give the value whose interval holds the number (`ofRatio_of_rounds`,
`ofDecimal_of_rounds`).
-/

namespace GridSweep

/-! ## Powers of integers -/

/-- A power of any exponent is a fraction of two natural powers. -/
theorem zpow_eq_toNat_div {b : ℕ} (hb : 0 < b) (e : ℤ) :
    (b : ℚ) ^ e = (b : ℚ) ^ e.toNat / (b : ℚ) ^ (-e).toNat := by
  have hb' : (b : ℚ) ≠ 0 := by positivity
  rw [← zpow_natCast, ← zpow_natCast, ← zpow_sub₀ hb']
  congr 1
  omega

theorem mul_pow_le_iff {b num den : ℕ} (hb : 0 < b) (hden : 0 < den) (e : ℤ) :
    den * b ^ e.toNat ≤ num * b ^ (-e).toNat ↔ (b : ℚ) ^ e ≤ (num : ℚ) / den := by
  rw [zpow_eq_toNat_div hb, div_le_div_iff₀ (by positivity) (by positivity), mul_comm den]
  norm_cast

/-- Scaling a fraction by a power. -/
theorem mul_pow_div {b num den : ℕ} (hb : 0 < b) (e : ℤ) :
    ((num * b ^ (-e).toNat : ℕ) : ℚ) / (den * b ^ e.toNat : ℕ) = num / den / (b : ℚ) ^ e := by
  have hb' : (b : ℚ) ≠ 0 := by positivity
  rw [zpow_eq_toNat_div hb]
  push_cast
  field_simp

namespace Binary64

variable {x : Binary64} {num den m : ℕ} {v : ℚ}

theorem two_zpow_pos (e : ℤ) : (0 : ℚ) < 2 ^ e := by positivity

theorem two_zpow_lt_iff {a b : ℤ} : (2 : ℚ) ^ a < 2 ^ b ↔ a < b :=
  zpow_lt_zpow_iff_right₀ (by norm_num)

/-! ## The two steps of rounding -/

theorem floorLog2_spec (hnum : 0 < num) (hden : 0 < den) :
    (2 : ℚ) ^ floorLog2 num den ≤ num / den ∧ (num : ℚ) / den < 2 ^ (floorLog2 num den + 1) := by
  have hnum1 : ((2 : ℚ)) ^ num.log2 ≤ num := by exact_mod_cast Nat.log2_self_le hnum.ne'
  have hnum2 : (num : ℚ) < 2 ^ (num.log2 + 1) := by exact_mod_cast Nat.lt_log2_self
  have hden1 : ((2 : ℚ)) ^ den.log2 ≤ den := by exact_mod_cast Nat.log2_self_le hden.ne'
  have hden2 : (den : ℚ) < 2 ^ (den.log2 + 1) := by exact_mod_cast Nat.lt_log2_self
  -- the estimate is right or one too large
  have hupper : (num : ℚ) / den < 2 ^ ((num.log2 : ℤ) - den.log2 + 1) := by
    rw [div_lt_iff₀ (by positivity)]
    calc (num : ℚ) < 2 ^ (num.log2 + 1) := hnum2
      _ = 2 ^ ((num.log2 : ℤ) - den.log2 + 1) * 2 ^ den.log2 := by
        rw [← zpow_natCast, ← zpow_natCast, ← zpow_add₀ (by norm_num)]
        congr 1
        push_cast
        ring
      _ ≤ _ := by gcongr
  have hlower : (2 : ℚ) ^ ((num.log2 : ℤ) - den.log2 - 1) ≤ num / den := by
    rw [le_div_iff₀ (by positivity)]
    calc (2 : ℚ) ^ ((num.log2 : ℤ) - den.log2 - 1) * den
        ≤ 2 ^ ((num.log2 : ℤ) - den.log2 - 1) * 2 ^ (den.log2 + 1) := by gcongr
      _ = 2 ^ num.log2 := by
        rw [← zpow_natCast, ← zpow_natCast, ← zpow_add₀ (by norm_num)]
        congr 1
        push_cast
        ring
      _ ≤ num := hnum1
  have hreach := @mul_pow_le_iff 2 num den (by decide) hden ((num.log2 : ℤ) - den.log2)
  unfold floorLog2
  simp only [Nat.shiftLeft_eq, hreach]
  split
  · next h => exact ⟨h, hupper⟩
  · next h => exact ⟨hlower, by simpa using h⟩

/-- `v` rounds to the integer `m`: it is at most a half away, and less where `m` is odd. -/
def RoundsToInt (v : ℚ) (m : ℕ) : Prop :=
  m - 1 / 2 ≤ v ∧ v ≤ m + 1 / 2 ∧ (m % 2 = 1 → m - 1 / 2 ≠ v ∧ v ≠ m + 1 / 2)

theorem divNearestEven_eq (hden : 0 < den) (h : RoundsToInt (num / den) m) :
    divNearestEven num den = m := by
  obtain ⟨hlow, hhigh, hodd⟩ := h
  have hden' : (0 : ℚ) < den := by exact_mod_cast hden
  have hsplit : den * (num / den) + num % den = num := Nat.div_add_mod num den
  have hrest : num % den < den := Nat.mod_lt _ hden
  -- the same bounds without fractions
  have hlow' : 2 * (den * m) ≤ 2 * num + den := by
    rw [le_div_iff₀ hden'] at hlow
    have : (2 : ℚ) * (den * m) ≤ 2 * num + den := by linarith
    exact_mod_cast this
  have hhigh' : 2 * num ≤ 2 * (den * m) + den := by
    rw [div_le_iff₀ hden'] at hhigh
    have : (2 : ℚ) * num ≤ 2 * (den * m) + den := by linarith
    exact_mod_cast this
  have hlowNe : m % 2 = 1 → 2 * (den * m) ≠ 2 * num + den := fun hm heq => by
    refine (hodd hm).1 ?_
    have : (2 : ℚ) * (den * m) = 2 * num + den := by exact_mod_cast heq
    rw [eq_div_iff hden'.ne']
    linarith
  have hhighNe : m % 2 = 1 → 2 * num ≠ 2 * (den * m) + den := fun hm heq => by
    refine (hodd hm).2 ?_
    have : (2 : ℚ) * num = 2 * (den * m) + den := by exact_mod_cast heq
    rw [div_eq_iff hden'.ne']
    linarith
  unfold divNearestEven
  simp only [Bool.or_eq_true, decide_eq_true_eq, Bool.and_eq_true, beq_iff_eq]
  generalize num / den = q at hsplit ⊢
  -- only the integers next to the quotient are close enough
  have hge : q ≤ m := by
    by_contra hlt
    have := Nat.mul_le_mul_left den (show m + 1 ≤ q by omega)
    rw [Nat.mul_succ] at this
    omega
  have hle : m ≤ q + 1 := by
    by_contra hlt
    have := Nat.mul_le_mul_left den (show q + 2 ≤ m by omega)
    rw [Nat.mul_add] at this
    omega
  obtain rfl | rfl : m = q ∨ m = q + 1 := by omega
  · split <;> omega
  · rw [Nat.mul_succ] at *
    split <;> omega

/-! ## Rounding intervals -/

theorem significand_lt (x : Binary64) : x.significand < 2 ^ 53 := by
  have := x.fraction_lt
  simp only [significand, Nat.one_shiftLeft]
  split <;> omega

theorem exponent_ge (x : Binary64) : -1074 ≤ x.exponent := by
  unfold exponent
  split <;> omega

theorem exponent_le (h : x.IsFinite) : x.exponent ≤ 971 := by
  have := x.exponentField_lt
  unfold IsFinite at h
  unfold exponent
  split <;> omega

/-- The value below is half as far away as the one above: a power of two that is not next to the
subnormals. -/
def IsNarrow (x : Binary64) : Prop := x.fraction = 0 ∧ 1 < x.exponentField

instance (x : Binary64) : Decidable x.IsNarrow := inferInstanceAs (Decidable (_ ∧ _))

/-- How far the interval of `x` reaches down, in units of the last place. -/
def reachBelow (x : Binary64) : ℚ := if x.IsNarrow then 1 / 4 else 1 / 2

/-- `v` lies in the interval of the numbers that round to the magnitude of `x`. -/
structure Rounds (v : ℚ) (x : Binary64) : Prop where
  low : (x.significand - x.reachBelow) * 2 ^ x.exponent ≤ v
  high : v ≤ (x.significand + 1 / 2) * 2 ^ x.exponent
  odd : x.significand % 2 = 1 →
    (x.significand - x.reachBelow) * 2 ^ x.exponent ≠ v ∧
      v ≠ (x.significand + 1 / 2) * 2 ^ x.exponent

theorem reachBelow_pos (x : Binary64) : 0 < x.reachBelow := by
  unfold reachBelow
  split <;> norm_num

theorem reachBelow_le (x : Binary64) : x.reachBelow ≤ 1 / 2 := by
  unfold reachBelow
  split <;> norm_num

theorem Rounds.of_lt (hlow : (x.significand - x.reachBelow) * 2 ^ x.exponent < v)
    (hhigh : v < (x.significand + 1 / 2) * 2 ^ x.exponent) : Rounds v x :=
  ⟨hlow.le, hhigh.le, fun _ => ⟨hlow.ne, hhigh.ne⟩⟩

theorem lt_absValue (x : Binary64) :
    (x.significand - x.reachBelow) * 2 ^ x.exponent < x.absValue := by
  have hpos := two_zpow_pos x.exponent
  have hreach := x.reachBelow_pos
  unfold absValue
  gcongr
  linarith

theorem absValue_lt (x : Binary64) : x.absValue < (x.significand + 1 / 2) * 2 ^ x.exponent := by
  have hpos := two_zpow_pos x.exponent
  unfold absValue
  gcongr
  linarith

theorem rounds_absValue (x : Binary64) : Rounds x.absValue x := .of_lt x.lt_absValue x.absValue_lt

/-- The bit pattern of a value that is not negative, from its significand and exponent. -/
theorem toNat_bits_eq (h : x.isNegative = false) :
    x.bits.toNat = (x.exponent + 1074).toNat * 2 ^ 52 + x.significand := by
  rw [toNat_bits, h]
  by_cases hfield : x.exponentField = 0
  · simp [exponent, significand, hfield]
  · simp only [exponent, significand, hfield, Nat.one_shiftLeft, if_false, Bool.false_eq_true]
    omega

theorem eq_of_toNat_bits {n : ℕ} (h : x.bits.toNat = n) : (⟨n.toUInt64⟩ : Binary64) = x := by
  subst h
  exact congrArg mk (UInt64.ofNat_toNat)

/-- Outside the subnormals the hidden bit is set. -/
theorem significand_ge (h : x.exponent ≠ -1074) : 2 ^ 52 ≤ x.significand := by
  unfold exponent at h
  simp only [significand, Nat.one_shiftLeft]
  split at h <;> simp_all

theorem Rounds.pos (h : Rounds v x) (hx : x.significand ≠ 0) : 0 < v := by
  have hone : (1 : ℚ) ≤ x.significand := by exact_mod_cast Nat.one_le_iff_ne_zero.2 hx
  have hreach := x.reachBelow_le
  exact (mul_pos (by linarith) (two_zpow_pos _)).trans_le h.low

theorem Rounds.lt (h : Rounds v x) : v < 2 ^ (x.exponent + 53) := by
  have hsig : (x.significand : ℚ) + 1 ≤ 2 ^ 53 := by exact_mod_cast x.significand_lt
  have hpos := two_zpow_pos x.exponent
  refine h.high.trans_lt ?_
  rw [zpow_add₀ (by norm_num), mul_comm]
  gcongr
  norm_num at hsig ⊢
  linarith

theorem Rounds.ge (h : Rounds v x) (hx : x.significand ≠ 0) : (2 : ℚ) ^ (-1075 : ℤ) ≤ v := by
  have hone : (1 : ℚ) ≤ x.significand := by exact_mod_cast Nat.one_le_iff_ne_zero.2 hx
  have hreach := x.reachBelow_le
  refine le_trans ?_ h.low
  calc (2 : ℚ) ^ (-1075 : ℤ) = 1 / 2 * 2 ^ (-1074 : ℤ) := by
        rw [show (-1075 : ℤ) = -1 + -1074 from rfl, zpow_add₀ (by norm_num)]
        norm_num
    _ ≤ 1 / 2 * 2 ^ x.exponent := by
      gcongr
      · norm_num
      · exact x.exponent_ge
    _ ≤ _ := by
      gcongr
      linarith

/-- In units of the last place of its own exponent, a number rounds to the significand. -/
theorem Rounds.toInt (h : Rounds v x) : RoundsToInt (v / 2 ^ x.exponent) x.significand := by
  have hpos := two_zpow_pos x.exponent
  have hreach := x.reachBelow_le
  have hlow := h.low
  refine ⟨?_, ?_, fun hodd => ⟨?_, ?_⟩⟩
  · rw [le_div_iff₀ hpos]
    refine le_trans ?_ hlow
    gcongr
  · rw [div_le_iff₀ hpos]
    exact h.high
  · rw [Ne, eq_div_iff hpos.ne']
    refine ne_of_lt (lt_of_le_of_lt ?_ (lt_of_le_of_ne hlow (h.odd hodd).1))
    gcongr
  · rw [Ne, div_eq_iff hpos.ne']
    exact (h.odd hodd).2

/-- The exponent at which a number is rounded. -/
theorem Rounds.exponent_eq (h : Rounds v x) (hnum : 0 < num) (hden : 0 < den) (hv : v = num / den) :
    max (floorLog2 num den - 52) (-1074) = x.exponent ∨
      x.IsNarrow ∧ v < 2 ^ (x.exponent + 52) ∧
        max (floorLog2 num den - 52) (-1074) = x.exponent - 1 := by
  obtain ⟨hfloor, hceil⟩ := floorLog2_spec hnum hden
  rw [← hv] at hfloor hceil
  have hpos := two_zpow_pos x.exponent
  have hge := x.exponent_ge
  have hbelow := two_zpow_lt_iff.1 (hfloor.trans_lt h.lt)
  by_cases hsub : x.exponent = -1074
  · exact .inl (by omega)
  have hnormal := significand_ge hsub
  by_cases hreaches : (2 : ℚ) ^ (x.exponent + 52) ≤ v
  · have := two_zpow_lt_iff.1 (hreaches.trans_lt hceil)
    exact .inl (by omega)
  -- below the smallest number with this exponent: only the interval of a power of two is there
  rw [not_le] at hreaches
  have hpower : x.significand = 2 ^ 52 := by
    have hlt := h.low.trans_lt hreaches
    rw [zpow_add₀ (by norm_num), mul_comm _ ((2 : ℚ) ^ (52 : ℤ)), mul_lt_mul_iff_left₀ hpos] at hlt
    have hreach := x.reachBelow_le
    have : (x.significand : ℚ) < (2 ^ 52 + 1 : ℕ) := by
      norm_num at hlt
      push_cast
      linarith
    have := Nat.cast_lt.1 this
    omega
  have hnarrow : x.IsNarrow := by
    unfold exponent at hsub
    simp only [significand, Nat.one_shiftLeft] at hpower
    have := x.fraction_lt
    constructor <;> split at hpower <;> omega
  have habove : (2 : ℚ) ^ (x.exponent + 51) ≤ v := by
    refine le_trans ?_ h.low
    rw [zpow_add₀ (by norm_num), mul_comm, hpower, reachBelow, if_pos hnarrow]
    gcongr
    norm_num
  have := two_zpow_lt_iff.1 (habove.trans_lt hceil)
  have := two_zpow_lt_iff.1 (hfloor.trans_lt hreaches)
  exact .inr ⟨hnarrow, hreaches, by omega⟩

theorem significand_of_narrow (h : x.IsNarrow) : x.significand = 2 ^ 52 := by
  obtain ⟨hfraction, hfield⟩ := h
  rw [significand, if_neg (by omega), hfraction, Nat.add_zero, Nat.one_shiftLeft]

/-- Numbers below a power of two that round to it do so also with one more place. -/
theorem Rounds.toInt_of_narrow (h : Rounds v x) (hnarrow : x.IsNarrow)
    (hv : v < 2 ^ (x.exponent + 52)) : RoundsToInt (v / 2 ^ (x.exponent - 1)) (2 ^ 53) := by
  have hpos := two_zpow_pos (x.exponent - 1)
  have hdouble : (2 : ℚ) ^ x.exponent = 2 * 2 ^ (x.exponent - 1) := by
    rw [zpow_sub_one₀ (by norm_num)]
    ring
  have hlow := h.low
  rw [significand_of_narrow hnarrow, reachBelow, if_pos hnarrow, hdouble] at hlow
  rw [zpow_add₀ (by norm_num), hdouble] at hv
  have hlow' : ((2 ^ 53 : ℕ) : ℚ) - 1 / 2 ≤ v / 2 ^ (x.exponent - 1) := by
    rw [le_div_iff₀ hpos]
    refine le_trans (le_of_eq ?_) hlow
    push_cast
    ring
  have hhigh' : v / 2 ^ (x.exponent - 1) < ((2 ^ 53 : ℕ) : ℚ) := by
    rw [div_lt_iff₀ hpos]
    refine hv.trans_le (le_of_eq ?_)
    push_cast
    ring
  exact ⟨hlow', by linarith, fun hodd => absurd hodd (by decide)⟩

/-- The result of rounding at a known exponent. -/
theorem ofRatio_eq {q : ℤ} (hfinite : x.IsFinite) (hsign : x.isNegative = false) (hnum : 0 < num)
    (hden : 0 < den) (hq : max (floorLog2 num den - 52) (-1074) = q)
    (hm : RoundsToInt (num / den / 2 ^ q) m)
    (hbits : x.bits.toNat = (q + 1074).toNat * 2 ^ 52 + m) : ofRatio num den = x := by
  have hround : divNearestEven (num * 2 ^ (-q).toNat) (den * 2 ^ q.toNat) = m :=
    divNearestEven_eq (by positivity) (by rwa [mul_pow_div (by decide) q, Nat.cast_ofNat])
  have hlt : x.bits.toNat < 2047 * 2 ^ 52 := by
    have := x.fraction_lt
    have := x.exponentField_lt
    rw [toNat_bits, hsign, if_neg (by simp)]
    unfold IsFinite at hfinite
    omega
  unfold ofRatio
  simp only [if_neg hnum.ne', hq, Nat.shiftLeft_eq, hround, ← hbits]
  rw [if_neg (by omega), eq_of_toNat_bits rfl]

/-- Rounding a fraction gives the value whose interval it lies in. -/
theorem ofRatio_of_rounds (hfinite : x.IsFinite) (hsign : x.isNegative = false)
    (hx : x.significand ≠ 0) (hden : 0 < den) (h : Rounds (num / den) x) :
    ofRatio num den = x := by
  have hnum : 0 < num := by
    have := h.pos hx
    by_contra hzero
    simp [show num = 0 by omega] at this
  have hbits := toNat_bits_eq hsign
  rcases h.exponent_eq hnum hden rfl with hq | ⟨hnarrow, hlt, hq⟩
  · exact ofRatio_eq hfinite hsign hnum hden hq h.toInt hbits
  · refine ofRatio_eq hfinite hsign hnum hden hq (h.toInt_of_narrow hnarrow hlt) ?_
    have hge := x.exponent_ge
    rw [hbits, significand_of_narrow hnarrow]
    omega

/-! ## Decimal numbers -/

/-- Rounding a decimal number gives the value whose interval it lies in; the bounds on exponents
leave none of them out. -/
theorem ofDecimal_of_rounds {digits : ℕ} {e : ℤ} (hfinite : x.IsFinite)
    (hsign : x.isNegative = false) (hx : x.significand ≠ 0)
    (h : Rounds (digits * 10 ^ e) x) : ofDecimal digits e = x := by
  have hdigits : 0 < digits := by
    have hpos := h.pos hx
    by_contra hzero
    simp [show digits = 0 by omega] at hpos
  have hone : (1 : ℚ) ≤ digits := by exact_mod_cast hdigits
  have hlarge : e ≤ 310 := by
    have hlt : (10 : ℚ) ^ e < 10 ^ (309 : ℤ) :=
      calc (10 : ℚ) ^ e ≤ digits * 10 ^ e := le_mul_of_one_le_left (by positivity) hone
        _ < 2 ^ (x.exponent + 53) := h.lt
        _ ≤ 2 ^ (1024 : ℤ) := by
          have := exponent_le hfinite
          gcongr
          · norm_num
          · omega
        _ < 10 ^ (309 : ℤ) := by exact_mod_cast (by decide +kernel : 2 ^ 1024 < 10 ^ 309)
    have := (zpow_lt_zpow_iff_right₀ (by norm_num : (1 : ℚ) < 10)).1 hlt
    omega
  unfold ofDecimal
  simp only [Nat.pow_eq]
  rw [if_neg hdigits.ne', if_neg (by omega)]
  split
  · next hnonneg =>
    refine ofRatio_of_rounds hfinite hsign hx one_pos ?_
    convert h using 1
    rw [Nat.cast_one, div_one, Nat.cast_mul, Nat.cast_pow, Nat.cast_ofNat, ← zpow_natCast,
      Int.toNat_of_nonneg hnonneg]
  · next hneg =>
    have hsmall : -1100 ≤ e + (digits.log2 : ℤ) := by
      have hlt : (2 : ℚ) ^ (-1075 : ℤ) < 2 ^ ((digits.log2 : ℤ) + 1 + e) :=
        calc (2 : ℚ) ^ (-1075 : ℤ) ≤ digits * 10 ^ e := h.ge hx
          _ < 2 ^ (digits.log2 + 1) * 10 ^ e := by
            gcongr
            exact_mod_cast Nat.lt_log2_self
          _ ≤ 2 ^ (digits.log2 + 1) * 2 ^ e := by
            rw [show e = -((-e).toNat : ℤ) by omega, zpow_neg, zpow_neg, zpow_natCast, zpow_natCast]
            gcongr
            norm_num
          _ = 2 ^ ((digits.log2 : ℤ) + 1 + e) := by
            rw [zpow_add₀ (by norm_num), ← zpow_natCast, Nat.cast_succ]
      have := two_zpow_lt_iff.1 hlt
      omega
    rw [if_neg (by omega)]
    refine ofRatio_of_rounds hfinite hsign hx (by positivity) ?_
    convert h using 1
    rw [Nat.cast_pow, Nat.cast_ofNat, ← zpow_natCast, Int.toNat_of_nonneg (by omega), zpow_neg,
      div_inv_eq_mul]

end Binary64

end GridSweep
