import GridSweep.Node.Basic
import GridSweep.Stencil.Footprint

/-!
# Stencils

A checked stencil program: the shared grid, the simplified output statement, the footprint of every
input and the free scalars. A tap is a lane value that the point function takes: a variable at an
offset.
-/

namespace GridSweep

structure Stencil where
  iterate : Nat
  kernelName : String
  partitions : Nat
  /-- The size of every input. -/
  size : List Nat
  /-- In order of declaration; the last one is carried from iteration to iteration. -/
  inputVars : List String
  outputVar : String
  outputIdx : List Int
  /-- The output statement after simplification. -/
  output : Output Node
  refs : Footprint
  /-- Free scalars, which the kernel takes as parameters. -/
  scalars : List String
deriving DecidableEq, Repr

structure Tap where
  var : String
  offset : Offset
  name : String
deriving DecidableEq, Repr

namespace Stencil

def dims (s : Stencil) : Nat := s.size.length

/-- Line buffers exist for rows and columns only. -/
def ensure2d (s : Stencil) : Except Error Unit :=
  if s.dims = 2 then .ok () else .error (.unsupportedDimensions s.dims)

def gridRows (s : Stencil) : Nat := s.size.headD 0

def gridCols (s : Stencil) : Nat := s.size.getD 1 1

/-- Rows that each partition owns. -/
def partRows (s : Stencil) : Nat := s.gridRows / max s.partitions 1

/-- The input that changes places with the output between sweeps. -/
def iteratedVar (s : Stencil) : String := s.inputVars.getLast?.getD s.outputVar

/-- All taps in order of names and offsets. -/
def taps (s : Stencil) : List Tap :=
  s.refs.flatMap fun (var, offsets) => offsets.map fun o => ⟨var, o, Offset.tapName var o⟩

end Stencil

end GridSweep
