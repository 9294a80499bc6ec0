import GridSweep.Number.Notation
import Mathlib.Algebra.Order.Field.Basic
import Mathlib.Algebra.Order.Field.Power
import Mathlib.Data.Rat.Cast.Order
import Mathlib.Tactic.FieldSimp
import Mathlib.Tactic.Linarith
import Mathlib.Tactic.NormNum
import Mathlib.Tactic.Positivity
import Mathlib.Tactic.Ring

/-!
# The number a bit pattern stands for

A bit pattern is made of its sign, its exponent field and its fraction (`toNat_bits`), and changing
the sign changes nothing else. A finite value stands for the rational number `±m * 2 ^ q`.
-/

namespace GridSweep.Binary64

variable {x y : Binary64}

/-! ## Fields -/

theorem fraction_lt (x : Binary64) : x.fraction < 2 ^ 52 :=
  Nat.mod_lt _ (by decide)

theorem exponentField_lt (x : Binary64) : x.exponentField < 2048 :=
  Nat.mod_lt _ (by decide)

theorem toNat_bits (x : Binary64) :
    x.bits.toNat =
      (if x.isNegative then 2 ^ 63 else 0) + x.exponentField * 2 ^ 52 + x.fraction := by
  have hlt := x.bits.toNat_lt
  simp only [isNegative, exponentField, fraction, Nat.shiftRight_eq_div_pow, Nat.one_shiftLeft,
    beq_iff_eq]
  split <;> omega

/-- A bit pattern is its three fields. -/
theorem ext_fields (hsign : x.isNegative = y.isNegative)
    (hexponent : x.exponentField = y.exponentField) (hfraction : x.fraction = y.fraction) :
    x = y := by
  have h : x.bits.toNat = y.bits.toNat := by
    rw [toNat_bits, toNat_bits, hsign, hexponent, hfraction]
  exact congrArg mk (UInt64.toNat_inj.1 h)

theorem toNat_neg_bits (x : Binary64) : x.neg.bits.toNat = x.bits.toNat ^^^ 2 ^ 63 := by
  simp [neg]

@[simp] theorem fraction_neg (x : Binary64) : x.neg.fraction = x.fraction := by
  rw [fraction, toNat_neg_bits, Nat.one_shiftLeft, Nat.xor_mod_two_pow, fraction, Nat.one_shiftLeft,
    show 2 ^ 63 % 2 ^ 52 = 0 from rfl, Nat.xor_zero]

@[simp] theorem exponentField_neg (x : Binary64) : x.neg.exponentField = x.exponentField := by
  rw [exponentField, toNat_neg_bits, Nat.one_shiftLeft, Nat.shiftRight_xor_distrib,
    Nat.xor_mod_two_pow, exponentField, Nat.one_shiftLeft,
    show 2 ^ 63 >>> 52 % 2 ^ 11 = 0 from rfl, Nat.xor_zero]

@[simp] theorem isNegative_neg (x : Binary64) : x.neg.isNegative = !x.isNegative := by
  have hxor := Nat.xor_mod_two_pow (a := x.bits.toNat >>> 63) (b := 1) (n := 1)
  rw [isNegative, toNat_neg_bits, Nat.shiftRight_xor_distrib, show 2 ^ 63 >>> 63 = 1 from rfl,
    show 2 = 2 ^ 1 from rfl, hxor, isNegative]
  rcases Nat.mod_two_eq_zero_or_one (x.bits.toNat >>> 63) with h | h <;>
    simp only [show 2 ^ 1 = 2 from rfl, h] <;> decide

@[simp] theorem significand_neg (x : Binary64) : x.neg.significand = x.significand := by
  simp [significand]

@[simp] theorem exponent_neg (x : Binary64) : x.neg.exponent = x.exponent := by
  simp [exponent]

/-! ## Values -/

/-- Neither an infinity nor a NaN. -/
def IsFinite (x : Binary64) : Prop := x.exponentField ≠ 2047

instance (x : Binary64) : Decidable x.IsFinite := inferInstanceAs (Decidable (_ ≠ _))

@[simp] theorem isFinite_neg : x.neg.IsFinite ↔ x.IsFinite := by
  simp [IsFinite]

theorem IsFinite.isNaN_eq_false (h : x.IsFinite) : x.isNaN = false := by
  rw [isNaN, beq_false_of_ne h, Bool.false_and]

theorem IsFinite.isInfinite_eq_false (h : x.IsFinite) : x.isInfinite = false := by
  rw [isInfinite, beq_false_of_ne h, Bool.false_and]

/-- The magnitude of a finite value. -/
def absValue (x : Binary64) : ℚ := x.significand * 2 ^ x.exponent

/-- The number a finite value stands for; both zeros stand for zero. -/
def toRat (x : Binary64) : ℚ := if x.isNegative then -x.absValue else x.absValue

theorem toRat_neg (x : Binary64) : x.neg.toRat = -x.toRat := by
  simp only [toRat, absValue, isNegative_neg, significand_neg, exponent_neg]
  cases x.isNegative <;> simp

end GridSweep.Binary64
