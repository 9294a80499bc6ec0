import GridSweep.Error
import GridSweep.Number.Word

/-!
# Checked arithmetic

Arithmetic on words that fails where the result does not fit. Lengths and positions are computed
over the integers or the naturals and then checked; passes are counted in words of 32 bits.
-/

namespace GridSweep

namespace Word64

/-- A number that has to fit into a signed word. -/
def checked (i : Int) : Except Error Int :=
  if least ≤ i ∧ i < 0x8000000000000000 then .ok i else .error (.limit .overflow)

/-- A count that has to fit into a word. -/
def checkedCount (n : Nat) : Except Error Nat :=
  if n < 0x10000000000000000 then .ok n else .error (.limit .overflow)

theorem checked_of_fits {i : Int} (hl : least ≤ i) (hu : i < 0x8000000000000000) :
    checked i = .ok i := if_pos ⟨hl, hu⟩

theorem checked_eq_ok {i j : Int} (h : checked i = .ok j) :
    j = i ∧ least ≤ i ∧ i < 0x8000000000000000 := by
  unfold checked at h
  split at h
  · next hfits =>
    cases h
    exact ⟨rfl, hfits⟩
  · cases h

theorem checkedCount_eq_ok {n m : Nat} (h : checkedCount n = .ok m) :
    m = n ∧ n < 0x10000000000000000 := by
  unfold checkedCount at h
  split at h
  · next hlt =>
    cases h
    exact ⟨rfl, hlt⟩
  · cases h

end Word64

namespace Words

variable {w : Nat}

def add (x y : BitVec w) : Except Error (BitVec w) :=
  if x.uaddOverflow y then .error (.limit .overflow) else .ok (x + y)

def mul (x y : BitVec w) : Except Error (BitVec w) :=
  if x.umulOverflow y then .error (.limit .overflow) else .ok (x * y)

/-- The quotient rounded up, from the quotient and the remainder. -/
def ceilDiv (x y : BitVec w) : Except Error (BitVec w) :=
  if y = 0 then .error (.limit .zeroDivisor)
  else if x % y = 0 then .ok (x / y)
  else add (x / y) 1

end Words

end GridSweep
