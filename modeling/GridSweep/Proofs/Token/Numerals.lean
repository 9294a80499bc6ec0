import GridSweep.Proofs.Names
import GridSweep.Proofs.Number.ShortestDigits
import GridSweep.Proofs.Token.LongestMatch

/-!
# Numbers read back

The text of a natural number below `2 ^ 63` lexes to it (`tokens_natural`), and the constant of a
finite value that is not negative lexes to that value (`tokens_constant`), in whichever of the three
notations it is written.
-/

namespace GridSweep

namespace Lexer

variable {c : Char} {cs r whole fraction : List Char}

/-- What follows makes no word or number longer, and no operator either. -/
def Stops (r : List Char) : Prop :=
  ∀ c ∈ r.head?, isWordPart c = false ∧ c ≠ '.' ∧ c ≠ '='

theorem Stops.word (h : Stops r) : ∀ c ∈ r.head?, isWordPart c = false := fun c hc => (h c hc).1

theorem isDigit_of_not_isWordPart (h : isWordPart c = false) : isDigit c = false := by
  simp only [isWordPart, Char.isAlphanum, Bool.or_eq_false_iff] at h
  exact h.1.2

theorem Stops.digit (h : Stops r) : ∀ c ∈ r.head?, isDigit c = false := fun c hc =>
  isDigit_of_not_isWordPart (h c hc).1

/-! ## Digits -/

theorem forall_mem_zero_isDigit : ∀ c ∈ ['0'], isDigit c = true :=
  List.forall_mem_singleton.2 rfl

theorem digitsValue_toDigits (n : ℕ) : digitsValue (Nat.toDigits 10 n) = n :=
  Nat.ofDigitChars_toDigits (by decide) (by decide)

theorem isDigit_of_mem_toDigits {n : ℕ} (h : c ∈ Nat.toDigits 10 n) : isDigit c = true :=
  Nat.isDigit_of_mem_toDigits (by decide) (by decide) h

theorem digitsValue_zeros (k : ℕ) (cs : List Char) :
    digitsValue (List.replicate k '0' ++ cs) = digitsValue cs := by
  induction k with
  | zero => rfl
  | succ k ih => exact ih

theorem tokens_number (hne : whole ≠ []) (hwhole : ∀ c ∈ whole, isDigit c = true)
    (hcs : ∀ c ∈ cs.head?, isDigit c = false) :
    tokens (whole ++ cs) =
      (scanNumber whole cs).piece.tokens ++ tokens (scanNumber whole cs).rest := by
  obtain ⟨d, ds, rfl⟩ := List.exists_cons_of_ne_nil hne
  obtain ⟨hd, hds⟩ := List.forall_mem_cons.1 hwhole
  rw [List.cons_append, tokens_cons, scan_digits hd hds hcs]

/-! ## Exponents -/

theorem exponent?_of_stops (h : Stops r) : exponent? r = none := by
  unfold exponent?
  split
  · next c cs =>
    have hc := (h c rfl).1
    rw [if_neg]
    rintro hexp
    simp only [Bool.or_eq_true, beq_iff_eq] at hexp
    rcases hexp with rfl | rfl <;> revert hc <;> decide
  · rfl

theorem isDigits_toDigits (n : ℕ) : IsDigits (Nat.toDigits 10 n) :=
  ⟨Nat.toDigits_ne_nil, fun _ => isDigit_of_mem_toDigits⟩

theorem isExponent_toString (e : ℤ) : IsExponent ('e' :: (toString e).toList) e := by
  cases e with
  | ofNat n =>
    have htext : (toString (Int.ofNat n)).toList = Nat.toDigits 10 n := toList_toString n
    have hplain := IsExponent.plain (.inl rfl) (isDigits_toDigits n)
    rw [digitsValue_toDigits] at hplain
    rw [htext]
    exact hplain
  | negSucc n =>
    have htext : (toString (Int.negSucc n)).toList = '-' :: Nat.toDigits 10 (n + 1) := by
      rw [← toList_toString, show toString (Int.negSucc n) = "-" ++ toString (n + 1) from rfl,
        String.toList_append]
      rfl
    have hminus := IsExponent.minus (.inl rfl) (isDigits_toDigits (n + 1))
    rw [digitsValue_toDigits] at hminus
    rw [htext]
    exact hminus

theorem exponent?_toString (e : ℤ) (hr : Stops r) :
    exponent? ('e' :: ((toString e).toList ++ r)) = some ⟨'e' :: (toString e).toList, e, r⟩ :=
  exponent?_eq (isExponent_toString e) hr.digit

/-! ## Numbers -/

theorem tokens_natural {n : ℕ} (hn : n < 2 ^ 63) (hr : Stops r) :
    tokens ((toString n).toList ++ r) = some (.int n) :: tokens r := by
  rw [toList_toString,
    tokens_number Nat.toDigits_ne_nil (fun _ => isDigit_of_mem_toDigits) hr.digit]
  have hscan : scanNumber (Nat.toDigits 10 n) r = ⟨.token (.int n), Nat.toDigits 10 n, r⟩ := by
    unfold scanNumber
    split
    · exact absurd rfl (hr '.' rfl).2.1
    · rw [exponent?_of_stops hr]
      simp only [intToken, digitsValue_toDigits]
      rw [if_pos (by simpa using hn)]
  rw [hscan]
  rfl

theorem tokens_fraction (hne : whole ≠ []) (hwhole : ∀ c ∈ whole, isDigit c = true)
    (hfraction : ∀ c ∈ fraction, isDigit c = true) (hr : Stops r) :
    tokens (whole ++ '.' :: (fraction ++ r)) =
      some (.float (.ofDecimal (digitsValue (whole ++ fraction)) (-fraction.length))) ::
        tokens r := by
  obtain ⟨htake, hdrop⟩ := takeWhile_append_of_stop hfraction hr.digit
  rw [tokens_number hne hwhole (by simp; decide)]
  simp only [scanNumber, htake, hdrop, scanFloat, exponent?_of_stops hr, floatToken, zero_sub]
  rfl

theorem tokens_fraction_exponent (e : ℤ) (hne : whole ≠ []) (hwhole : ∀ c ∈ whole, isDigit c = true)
    (hfraction : ∀ c ∈ fraction, isDigit c = true) (hr : Stops r) :
    tokens (whole ++ '.' :: (fraction ++ 'e' :: ((toString e).toList ++ r))) =
      some (.float (.ofDecimal (digitsValue (whole ++ fraction)) (e - fraction.length))) ::
        tokens r := by
  obtain ⟨htake, hdrop⟩ :=
    takeWhile_append_of_stop (r := 'e' :: ((toString e).toList ++ r)) hfraction (by simp; decide)
  rw [tokens_number hne hwhole (by simp; decide)]
  simp only [scanNumber, htake, hdrop, scanFloat, exponent?_toString e hr, floatToken]
  rfl

theorem tokens_exponent (e : ℤ) (hne : whole ≠ []) (hwhole : ∀ c ∈ whole, isDigit c = true)
    (hr : Stops r) : tokens (whole ++ 'e' :: ((toString e).toList ++ r)) =
      some (.float (.ofDecimal (digitsValue whole) e)) :: tokens r := by
  have hscan : scanNumber whole ('e' :: ((toString e).toList ++ r)) =
      ⟨floatToken whole [] e, whole ++ 'e' :: (toString e).toList, r⟩ := by
    unfold scanNumber
    split
    · next h => simp at h
    · rw [exponent?_toString e hr]
  rw [tokens_number hne hwhole (by simp; decide), hscan]
  simp only [floatToken, List.append_nil, List.length_nil, Nat.cast_zero, sub_zero]
  rfl

end Lexer

namespace Decimal

open Lexer

variable {d : Decimal} {r : List Char}

theorem tokens_scientific (d : Decimal) (hr : Stops r) :
    tokens (d.scientific.toList ++ r) =
      some (.float (.ofDecimal d.digits d.exponent)) :: tokens r := by
  have hvalue : digitsValue d.digitChars = d.digits := digitsValue_toDigits d.digits
  have hdigit : ∀ c ∈ d.digitChars, isDigit c = true := fun _ => isDigit_of_mem_toDigits
  unfold scientific
  split
  · next hnil => exact absurd hnil Nat.toDigits_ne_nil
  · next c hone =>
    rw [hone] at hvalue hdigit
    have htext : (String.ofList [c, 'e'] ++ toString d.exponent).toList ++ r =
        [c] ++ 'e' :: ((toString d.exponent).toList ++ r) := by simp
    rw [htext, tokens_exponent d.exponent (by simp) hdigit hr, hvalue]
  · next c cs hne hmany =>
    rw [hmany] at hvalue hdigit
    have htext (e : ℤ) : (String.ofList (c :: '.' :: cs) ++ "e" ++ toString e).toList ++ r =
        [c] ++ '.' :: (cs ++ 'e' :: ((toString e).toList ++ r)) := by simp
    rw [htext, tokens_fraction_exponent _ (by simp) (fun x hx => hdigit x (by simp_all))
      (fun x hx => hdigit x (List.mem_cons_of_mem _ hx)) hr, List.singleton_append, hvalue,
      Int.add_sub_cancel]

theorem tokens_positional (h : d.exponent < 0) (hr : Stops r) :
    tokens (d.positional.toList ++ r) =
      some (.float (.ofDecimal d.digits d.exponent)) :: tokens r := by
  have hvalue : digitsValue d.digitChars = d.digits := digitsValue_toDigits d.digits
  have hdigit : ∀ c ∈ d.digitChars, isDigit c = true := fun _ => isDigit_of_mem_toDigits
  simp only [positional, if_neg (show ¬ 0 ≤ d.exponent by omega)]
  split
  · next hplaces =>
    -- the point stands between two digits
    set k := d.digitChars.length - (-d.exponent).toNat with hk
    have hfraction : (-((d.digitChars.drop k).length : ℤ)) = d.exponent := by
      rw [List.length_drop]
      omega
    rw [String.toList_ofList, List.append_assoc, List.cons_append, tokens_fraction _
      (fun c hc => hdigit c (List.mem_of_mem_take hc))
      (fun c hc => hdigit c (List.mem_of_mem_drop hc)) hr, List.take_append_drop, hvalue, hfraction]
    rw [Ne, List.take_eq_nil_iff, not_or]
    exact ⟨by omega, Nat.toDigits_ne_nil⟩
  · next hplaces =>
    -- zeros fill the places up to the point
    set zeros := List.replicate ((-d.exponent).toNat - d.digitChars.length) '0' with hzeros
    have hfraction : (-((zeros ++ d.digitChars).length : ℤ)) = d.exponent := by
      rw [List.length_append, hzeros, List.length_replicate]
      omega
    have hmem : ∀ c ∈ zeros ++ d.digitChars, isDigit c = true := by
      intro c hc
      rcases List.mem_append.1 hc with hc | hc
      · obtain rfl := List.eq_of_mem_replicate hc
        decide
      · exact hdigit c hc
    have htext := tokens_fraction (List.cons_ne_nil '0' []) forall_mem_zero_isDigit hmem hr
    rw [hfraction, ← List.replicate_one, digitsValue_zeros, hzeros, digitsValue_zeros,
      hvalue] at htext
    rw [String.toList_ofList]
    simpa using htext

end Decimal

namespace Binary64

open Lexer

variable {x : Binary64} {r : List Char}

theorem magnitude_div (x : Binary64) : (x.magnitude.1 : ℚ) / x.magnitude.2 = x.absValue := by
  have hscale := zpow_eq_toNat_div (b := 2) (by decide) x.exponent
  push_cast at hscale
  unfold magnitude absValue
  split
  · next h => simp [Nat.shiftLeft_eq, hscale, show (-x.exponent).toNat = 0 by omega]
  · next h => simp [Nat.shiftLeft_eq, hscale, show x.exponent.toNat = 0 by omega, div_eq_mul_inv]

theorem magnitude_pos (x : Binary64) : 0 < x.magnitude.2 := by
  unfold magnitude
  split <;> simp [Nat.shiftLeft_eq]

/-- An integer rounds to a value only if the value is that integer. -/
theorem isIntegral_of_rounds {n : ℕ} (h : Rounds n x) : x.isIntegral = true := by
  unfold isIntegral magnitude
  split
  · simp [Nat.mod_one]
  next hneg =>
  obtain ⟨hlow, hhigh, -⟩ := h.toInt
  have hscale : (n : ℚ) / 2 ^ x.exponent = (n * 2 ^ (-x.exponent).toNat : ℕ) := by
    have hpow : (2 : ℚ) ^ x.exponent = (2 ^ (-x.exponent).toNat)⁻¹ := by
      rw [← zpow_natCast, ← zpow_neg, Int.toNat_of_nonneg (by omega), Int.neg_neg]
    rw [hpow, div_inv_eq_mul]
    push_cast
    rfl
  rw [hscale] at hlow hhigh
  -- two integers that are at most a half apart
  have hle : (x.significand : ℚ) < (n * 2 ^ (-x.exponent).toNat : ℕ) + 1 := by linarith
  have hge : ((n * 2 ^ (-x.exponent).toNat : ℕ) : ℚ) < x.significand + 1 := by linarith
  have hle' : x.significand < n * 2 ^ (-x.exponent).toNat + 1 := by exact_mod_cast hle
  have hge' : n * 2 ^ (-x.exponent).toNat < x.significand + 1 := by exact_mod_cast hge
  rw [show x.significand = n * 2 ^ (-x.exponent).toNat by omega]
  simp [Nat.shiftLeft_eq]

theorem shortest_exponent_neg (hfinite : x.IsFinite) (hx : x.significand ≠ 0)
    (h : x.isIntegral = false) : x.shortest.exponent < 0 := by
  by_contra hexponent
  have hinteger : x.shortest.value = (x.shortest.digits * 10 ^ x.shortest.exponent.toNat : ℕ) := by
    rw [Decimal.value]
    push_cast
    rw [← zpow_natCast, Int.toNat_of_nonneg (not_lt.1 hexponent)]
  have := isIntegral_of_rounds (hinteger ▸ shortest_rounds hfinite hx)
  simp [h] at this

theorem eq_zero_of_significand (hsign : x.isNegative = false) (hx : x.significand = 0) :
    x = ⟨0⟩ := by
  have hbits := toNat_bits_eq hsign
  unfold significand at hx
  split at hx
  · next hfield => exact ext_fields hsign hfield hx
  · simp at hx

theorem ofDecimal_shortest (hfinite : x.IsFinite) (hsign : x.isNegative = false)
    (hx : x.significand ≠ 0) : .ofDecimal x.shortest.digits x.shortest.exponent = x :=
  ofDecimal_of_rounds hfinite hsign hx (shortest_rounds hfinite hx)

/-- An integer is written with a zero behind the point. -/
theorem tokens_integral (hfinite : x.IsFinite) (hsign : x.isNegative = false)
    (hx : x.significand ≠ 0) (hintegral : x.isIntegral = true) (hr : Stops r) :
    tokens ((toString (x.magnitude.1 / x.magnitude.2) ++ ".0").toList ++ r) =
      some (.float x) :: tokens r := by
  set n := x.magnitude.1 / x.magnitude.2
  have hvalue : (n : ℚ) = x.absValue := by
    have hdvd : x.magnitude.2 ∣ x.magnitude.1 :=
      Nat.dvd_of_mod_eq_zero (by simpa [isIntegral] using hintegral)
    rw [← magnitude_div, eq_div_iff (by exact_mod_cast (magnitude_pos x).ne')]
    exact_mod_cast Nat.div_mul_cancel hdvd
  have htext : (toString n ++ ".0").toList ++ r = Nat.toDigits 10 n ++ '.' :: (['0'] ++ r) := by
    simp
  have hdigits : digitsValue (Nat.toDigits 10 n ++ ['0']) = 10 * n := by
    simp only [digitsValue, List.foldl_append]
    exact congrArg (10 * ·) (digitsValue_toDigits n)
  have hrounds : Rounds ((10 * n : ℕ) * 10 ^ (-(['0'].length : ℤ))) x := by
    have hsame : ((10 * n : ℕ) : ℚ) * 10 ^ (-(['0'].length : ℤ)) = x.absValue := by
      rw [← hvalue, List.length_singleton, Nat.cast_one, zpow_neg_one]
      push_cast
      ring
    rw [hsame]
    exact rounds_absValue x
  rw [htext, tokens_fraction Nat.toDigits_ne_nil (fun _ => isDigit_of_mem_toDigits)
    forall_mem_zero_isDigit hr, hdigits, ofDecimal_of_rounds hfinite hsign hx hrounds]

/-- The constant of a finite value that is not negative reads back as the value. -/
theorem tokens_constant (hfinite : x.IsFinite) (hsign : x.isNegative = false) (hr : Stops r) :
    tokens (x.constant.toList ++ r) = some (.float x) :: tokens r := by
  simp only [constant, hfinite.isNaN_eq_false, hfinite.isInfinite_eq_false, withSign, hsign,
    Bool.false_eq_true, if_false]
  by_cases hx : x.significand = 0
  · obtain rfl := eq_zero_of_significand hsign hx
    exact tokens_fraction (List.cons_ne_nil '0' []) forall_mem_zero_isDigit
      forall_mem_zero_isDigit hr
  split
  · rw [Decimal.tokens_scientific _ hr, ofDecimal_shortest hfinite hsign hx]
  split
  · next hintegral => exact tokens_integral hfinite hsign hx hintegral hr
  · next hintegral =>
    rw [Decimal.tokens_positional (shortest_exponent_neg hfinite hx (by simpa using hintegral)) hr,
      ofDecimal_shortest hfinite hsign hx]

/-- A negative constant is the sign in front of the constant of the opposite value. -/
theorem constant_of_isNegative (hfinite : x.IsFinite) (hsign : x.isNegative = true) :
    x.constant = "-" ++ x.neg.constant := by
  have hneg := isFinite_neg.2 hfinite
  have hmagnitude : x.neg.magnitude = x.magnitude := by simp [magnitude]
  have hshortest : x.neg.shortest = x.shortest := by
    simp [shortest, isZero, RoundingInterval.ofBinary64]
  simp only [constant, hfinite.isNaN_eq_false, hfinite.isInfinite_eq_false, hneg.isNaN_eq_false,
    hneg.isInfinite_eq_false, isLarge, isIntegral, hmagnitude, hshortest, withSign, isNegative_neg,
    hsign, Bool.not_true, Bool.false_eq_true, if_false, if_true]
  split
  · rfl
  · split <;> rfl

end Binary64

end GridSweep
