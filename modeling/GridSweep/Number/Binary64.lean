/-!
# Binary64 values

A literal of the language is a 64-bit IEEE value kept as its bit pattern, so two literals are equal
exactly when their bits are: `0.0` and `-0.0` differ, and a NaN equals itself.

A finite value is `±significand * 2 ^ exponent` with natural `significand`. `ofRatio` rounds an
exact fraction to the nearest value, ties to the even significand.
-/

namespace GridSweep

structure Binary64 where
  bits : UInt64
deriving DecidableEq, Repr, Inhabited

namespace Binary64

/-! ### Fields -/

/-- The 52 stored bits of the significand. -/
def fraction (x : Binary64) : Nat := x.bits.toNat % 1 <<< 52

/-- The 11 bits of the biased exponent. -/
def exponentField (x : Binary64) : Nat := x.bits.toNat >>> 52 % 1 <<< 11

/-- The sign bit, also set on `-0.0` and on negative NaNs. -/
def isNegative (x : Binary64) : Bool := x.bits.toNat >>> 63 % 2 == 1

def isNaN (x : Binary64) : Bool := x.exponentField == 2047 && x.fraction != 0

def isInfinite (x : Binary64) : Bool := x.exponentField == 2047 && x.fraction == 0

/-- Both zeros. -/
def isZero (x : Binary64) : Bool := x.exponentField == 0 && x.fraction == 0

/-- The significand with its hidden bit; subnormals and zeros have none. -/
def significand (x : Binary64) : Nat :=
  if x.exponentField = 0 then x.fraction else 1 <<< 52 + x.fraction

/-- The power of two that scales `significand`. -/
def exponent (x : Binary64) : Int :=
  if x.exponentField = 0 then -1074 else (x.exponentField : Int) - 1075

/-- The magnitude of a finite value as a fraction `num / den`. -/
def magnitude (x : Binary64) : Nat × Nat :=
  if 0 ≤ x.exponent then (x.significand <<< x.exponent.toNat, 1)
  else (x.significand, 1 <<< (-x.exponent).toNat)

/-- A finite value without fractional part. -/
def isIntegral (x : Binary64) : Bool := x.magnitude.1 % x.magnitude.2 == 0

/-! ### Rounding -/

/-- `num / den` to the nearest integer, a tie to the even one. -/
def divNearestEven (num den : Nat) : Nat :=
  let q := num / den
  let r := num % den
  if den < 2 * r || (2 * r == den && q % 2 == 1) then q + 1 else q

/-- The largest `e` with `2 ^ e ≤ num / den`, for positive `num` and `den`. -/
def floorLog2 (num den : Nat) : Int :=
  let e : Int := (num.log2 : Int) - den.log2
  if den <<< e.toNat ≤ num <<< (-e).toNat then e else e - 1

def positiveInfinity : Binary64 := ⟨0x7ff0000000000000⟩

/-- The value nearest to `num / den`; too large a fraction gives infinity. The sum of the shifted
exponent and the rounded significand carries into the next exponent by itself. -/
def ofRatio (num den : Nat) : Binary64 :=
  if num = 0 then ⟨0⟩
  else
    let q : Int := max (floorLog2 num den - 52) (-1074)
    let m := divNearestEven (num <<< (-q).toNat) (den <<< q.toNat)
    let bits := (q + 1074).toNat <<< 52 + m
    if 2047 <<< 52 ≤ bits then positiveInfinity else ⟨bits.toUInt64⟩

def ofNat (n : Nat) : Binary64 := ofRatio n 1

/-- The value nearest to `digits * 10 ^ exponent`. Exponents far outside the range are answered
without forming the power of ten. -/
def ofDecimal (digits : Nat) (exponent : Int) : Binary64 :=
  if digits = 0 then ⟨0⟩
  else if 310 < exponent then positiveInfinity
  else if 0 ≤ exponent then ofRatio (digits * Nat.pow 10 exponent.toNat) 1
  else if exponent + (digits.log2 : Int) < -1100 then ⟨0⟩
  else ofRatio digits (Nat.pow 10 (-exponent).toNat)

/-! ### Arithmetic -/

def toFloat (x : Binary64) : Float := Float.ofBits x.bits

def ofFloat (f : Float) : Binary64 := ⟨f.toBits⟩

/-- Flips the sign bit, also of zeros and NaNs. -/
def neg (x : Binary64) : Binary64 := ⟨x.bits ^^^ 0x8000000000000000⟩

def add (x y : Binary64) : Binary64 := ofFloat (x.toFloat + y.toFloat)

def sub (x y : Binary64) : Binary64 := ofFloat (x.toFloat - y.toFloat)

def mul (x y : Binary64) : Binary64 := ofFloat (x.toFloat * y.toFloat)

def div (x y : Binary64) : Binary64 := ofFloat (x.toFloat / y.toFloat)

theorem neg_neg (x : Binary64) : x.neg.neg = x := by
  unfold neg
  rw [UInt64.xor_assoc, UInt64.xor_self, UInt64.xor_zero]

end Binary64

end GridSweep
