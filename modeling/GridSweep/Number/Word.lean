/-!
# Words and memory

Numbers are kept in words of 64 bits. A word is read as a natural number or in two's complement:
counts are naturals, and column arithmetic is signed. What is too large for a word is reduced modulo
`2 ^ 64`.

A list lies in one piece of memory, and one piece has fewer than `2 ^ 63` bytes. A list that would
need more cannot be made, however much memory there is.
-/

namespace GridSweep

namespace Word64

/-- A natural number read in two's complement. -/
def signed (n : Nat) : Int :=
  if n % 0x10000000000000000 < 0x8000000000000000 then ((n % 0x10000000000000000 : Nat) : Int)
  else ((n % 0x10000000000000000 : Nat) : Int) - 0x10000000000000000

/-- The word of an integer as a natural number. -/
def unsigned (i : Int) : Nat := (i % 0x10000000000000000).toNat

/-- The signed number that is left of an integer in a word. -/
def wrap (i : Int) : Int := signed (unsigned i)

/-- The least number in two's complement. -/
def least : Int := -0x8000000000000000

theorem signed_of_lt {n : Nat} (h : n < 0x8000000000000000) : signed n = n := by
  unfold signed
  rw [if_pos] <;> omega

theorem unsigned_of_lt {n : Nat} (h : n < 0x10000000000000000) : unsigned n = n := by
  unfold unsigned
  omega

end Word64

namespace Capacity

/-- The most bytes that one piece of memory has. -/
def limit : Nat := 1 <<< 63 - 1

/-- Whether one piece of memory can hold `count` items of `bytes` bytes each. -/
def holds (count bytes : Nat) : Bool := decide (count * bytes ≤ limit)

end Capacity

end GridSweep
