import GridSweep.Number.Binary64

/-!
# Shortest decimal digits

The shortest digits of a positive finite value are the fewest decimal digits that still round to
it. The reals that round to `m * 2 ^ q` form an interval whose ends belong to it exactly when `m`
is even. For one digit, two digits, and so on, the two neighbours of the value on that decimal grid
are tested; the first grid with a hit gives the digits. Of two hits the nearer wins and a tie goes
up.
-/

namespace GridSweep

/-- `digits * 10 ^ exponent`. -/
structure Decimal where
  digits : Nat
  exponent : Int
deriving DecidableEq, Repr

namespace Decimal

/-- Moves trailing zeros of the digits into the exponent, at most `fuel` of them. -/
def stripZeros : Nat → Decimal → Decimal
  | 0, d => d
  | fuel + 1, d =>
    if d.digits ≠ 0 ∧ d.digits % 10 = 0 then stripZeros fuel ⟨d.digits / 10, d.exponent + 1⟩ else d

/-- The decimal digits, most significant first. -/
def digitChars (d : Decimal) : List Char := Nat.toDigits 10 d.digits

end Decimal

/-- An interval of positive reals with a common denominator: `low / den` to `high / den`, around
`value / den`. -/
structure RoundingInterval where
  low : Nat
  value : Nat
  high : Nat
  den : Nat
  closed : Bool
deriving Repr

namespace RoundingInterval

/-- The reals that round to a positive finite value. Below a power of two the gap is half as wide as
above it, except next to the subnormals. -/
def ofBinary64 (x : Binary64) : RoundingInterval :=
  let m := x.significand
  let narrow := x.fraction == 0 && decide (1 < x.exponentField)
  let low := if narrow then 4 * m - 1 else 4 * m - 2
  let up := 1 <<< (x.exponent - 2).toNat
  let down := 1 <<< (2 - x.exponent).toNat
  ⟨low * up, 4 * m * up, (4 * m + 2) * up, down, m % 2 == 0⟩

/-- Whether `num / den'` lies in the interval. -/
def contains (i : RoundingInterval) (num den' : Nat) : Bool :=
  let x := num * i.den
  let lo := i.low * den'
  let hi := i.high * den'
  if i.closed then decide (lo ≤ x) && decide (x ≤ hi) else decide (lo < x) && decide (x < hi)

/-- The number of decimal digits in front of the point, less one: `10 ^ e ≤ value < 10 ^ (e + 1)`.
Walks up or down from an estimate that is off by at most one. -/
def floorLog10 (i : RoundingInterval) : Int :=
  let bits : Int := (i.value.log2 : Int) - i.den.log2
  let e : Int := (bits * 30103) / 100000
  let reaches (e : Int) : Bool :=
    decide (i.den * Nat.pow 10 e.toNat ≤ i.value * Nat.pow 10 (-e).toNat)
  if reaches (e + 1) then e + 1 else if reaches e then e else e - 1

/-- The hit on the grid of multiples of `10 ^ unit`, if there is one. -/
def hit? (i : RoundingInterval) (unit : Int) : Option Decimal :=
  let scale := Nat.pow 10 (-unit).toNat
  let step := Nat.pow 10 unit.toNat
  let num := i.value * scale
  let den := i.den * step
  let down := num / den
  let rest := num % den
  let inDown := i.contains (down * step) scale
  let inUp := i.contains ((down + 1) * step) scale
  if inUp && (!inDown || decide (den ≤ 2 * rest)) then some ⟨down + 1, unit⟩
  else if inDown then some ⟨down, unit⟩
  else none

/-- Tries one more digit at a time; seventeen digits always suffice. -/
def search (i : RoundingInterval) : Nat → Int → Decimal
  | 0, unit => ⟨i.value * Nat.pow 10 (-unit).toNat / (i.den * Nat.pow 10 unit.toNat), unit⟩
  | more + 1, unit =>
    match i.hit? unit with
    | some d => d
    | none => search i more (unit - 1)

end RoundingInterval

namespace Binary64

/-- The shortest digits of a finite value, without its sign and without trailing zeros. -/
def shortest (x : Binary64) : Decimal :=
  if x.isZero then ⟨0, 0⟩
  else
    let i := RoundingInterval.ofBinary64 x
    (i.search 17 i.floorLog10).stripZeros 400

end Binary64

end GridSweep
