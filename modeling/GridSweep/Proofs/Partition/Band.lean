import GridSweep.Proofs.Outcome
import GridSweep.Proofs.Partition.Grid
import GridSweep.Proofs.Pipeline

/-!
# The sweep of one partition

Partition `p` has rows of the grid from `plan.origin p` on. A stage makes rows from those of the
stage before it, and stops if it needs one that is not there. When the buffer has a cutting of the
grid, every stage has the rows it needs and makes a cutting of the grid one pass later, so the last
one makes the owned rows after all passes of the sweep.
-/

namespace GridSweep

/-- Why partitions stop before they are done. -/
inductive Stop where
  /-- A stage needs a row that it was not given. -/
  | missing (row : Int)
  /-- Nobody can go on with the exchange. -/
  | deadlock
deriving DecidableEq, Repr

/-- Some rows, in buffer coordinates. -/
structure Band (α : Type) where
  first : Nat
  rows : List α

variable {α : Type} {halo : Halo} {F : Int → List α → α} {H : Int → α} {o : Int}

namespace Band

def row (b : Band α) (y : Int) : Except Stop α :=
  if y < b.first then .error (.missing y)
  else
    match b.rows[(y - b.first).toNat]? with
    | some r => .ok r
    | none => .error (.missing y)

/-- What a stage makes. Row `y` of the buffer is row `origin + y` of the grid. -/
def stage (F : Int → List α → α) (halo : Halo) (origin : Int) (b : Band α) (r : StageRange)
    (skip : Bool) : Except Stop (Band α) := do
  let rows ← (List.range r.validRows).mapM fun i : Nat => do
    let y : Int := r.firstRow + i
    if skip then b.row y
    else
      let window ← (List.range (halo.total + 1)).mapM fun k : Nat => b.row (y - halo.top + k)
      return F (origin + y) window
  return ⟨r.firstRow, rows⟩

/-- Writes the rows into a buffer. -/
def write (b : Band α) (buffer : Nat → α) (y : Nat) : α :=
  if y < b.first then buffer y else (b.rows[y - b.first]?).getD (buffer y)

end Band

namespace Plan

variable {plan : Plan}

/-- The row of the grid that is the first in the buffers of partition `p`. -/
def origin (plan : Plan) (p : Nat) : Int := p * plan.partRows - plan.topRows

/-- The rows that the last stage of a sweep makes from a buffer. -/
def sweepBand (plan : Plan) (F : Int → List α → α) (p : Nat) (skips : List Bool)
    (buffer : Nat → α) : Except Stop (Band α) :=
  (plan.stages.zip skips).foldlM (fun b (r, skip) => b.stage F plan.halo (plan.origin p) r skip)
    ⟨0, (List.range plan.bufferRows).map buffer⟩

end Plan

end GridSweep
