import GridSweep.Number.Shortest

/-!
# Decimal notation

Two notations for the same shortest digits: positional, and with an exponent. `Binary64.text` is the
plain positional text of a value; `Binary64.constant` is the text of a C floating constant, which
always has a point or an exponent.
-/

namespace GridSweep

namespace Decimal

/-- All digits written out around the point; no point where there is no fraction. -/
def positional (d : Decimal) : String :=
  let ds := d.digitChars
  if 0 ≤ d.exponent then String.ofList (ds ++ List.replicate d.exponent.toNat '0')
  else
    let places := (-d.exponent).toNat
    if places < ds.length then
      String.ofList (ds.take (ds.length - places) ++ '.' :: ds.drop (ds.length - places))
    else String.ofList ('0' :: '.' :: (List.replicate (places - ds.length) '0' ++ ds))

/-- One digit, the rest behind a point if there are more, and the exponent after `e`. -/
def scientific (d : Decimal) : String :=
  match d.digitChars with
  | [] => ""
  | [c] => String.ofList [c, 'e'] ++ toString d.exponent
  | c :: cs => String.ofList (c :: '.' :: cs) ++ "e" ++ toString (d.exponent + cs.length)

end Decimal

namespace Binary64

/-- Puts the sign in front; a negative zero has one too. -/
def withSign (x : Binary64) (text : String) : String := if x.isNegative then "-" ++ text else text

/-- Positional text: `1`, `0.00001`, `inf`. -/
def text (x : Binary64) : String :=
  if x.isNaN then "NaN"
  else if x.isInfinite then x.withSign "inf"
  else x.withSign x.shortest.positional

/-- A finite value of at least `10 ^ 15` in magnitude. -/
def isLarge (x : Binary64) : Bool := decide (Nat.pow 10 15 * x.magnitude.2 ≤ x.magnitude.1)

/-- A C constant: large values have an exponent, whole numbers end in `.0`. -/
def constant (x : Binary64) : String :=
  if x.isNaN then "NAN"
  else if x.isInfinite then x.withSign "INFINITY"
  else if x.isLarge then x.withSign x.shortest.scientific
  else if x.isIntegral then x.withSign (toString (x.magnitude.1 / x.magnitude.2) ++ ".0")
  else x.withSign x.shortest.positional

end Binary64

end GridSweep
