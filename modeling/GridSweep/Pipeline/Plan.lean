import GridSweep.Accelerator
import GridSweep.Number.Checked

/-!
# Pipeline plans

A kernel call chains `S` stages, and each applies the stencil once. A stage consumes the rows that
the stage before it produced, so every stage loses the rows of one halo:

    buffer rows: [T*S top halo][P owned][B*S bottom halo]
    stage s computes rows T*(s+1) up to, not including, T*(s+1) + P + (T+B)*(S-1-s)

The last stage computes exactly the owned rows.
-/

namespace GridSweep

inductive StageKind where
  /-- The only stage. -/
  | single
  | first
  | middle (index : Nat)
  | last
deriving DecidableEq, Repr

/-- Halo rows that one pass of the stencil consumes. -/
structure Halo where
  top : Nat
  bottom : Nat
deriving DecidableEq, Repr

def Halo.total (h : Halo) : Nat := h.top + h.bottom

/-- The rows a stage produces, in buffer coordinates. -/
structure StageRange where
  index : Nat
  kind : StageKind
  firstRow : Nat
  validRows : Nat
deriving DecidableEq, Repr

/-- The bytes that a stage takes in a list. -/
def StageRange.bytes : Nat := 40

def StageRange.name (r : StageRange) : String :=
  match r.kind with
  | .single => "stage"
  | .first => "stage_in"
  | .middle i => s!"stage_mid_{i}"
  | .last => "stage_out"

structure Plan where
  stageCount : Nat
  partRows : Nat
  halo : Halo
  stages : List StageRange
deriving DecidableEq, Repr

namespace Plan

/-- The kind of stage `s` out of `count`. -/
def kindOf (count s : Nat) : StageKind :=
  if count = 1 then .single
  else if s = 0 then .first
  else if s + 1 = count then .last
  else .middle s

def stageRange (count partRows : Nat) (halo : Halo) (s : Nat) : StageRange where
  index := s
  kind := kindOf count s
  firstRow := halo.top * (s + 1)
  validRows := partRows + halo.total * (count - 1) - halo.total * s

/-- The plan of a partition that owns `partRows` rows. -/
def create (target : Accelerator) (partRows : Nat) (halo : Halo) : Except Error Plan :=
  if target.stages = 0 then .error (.config .zeroStages)
  else if partRows = 0 then .error (.config .noOwnedRows)
  else if !Capacity.holds target.stages StageRange.bytes then
    .error (.limit (.listLength target.stages))
  else .ok {
    stageCount := target.stages
    partRows
    halo
    stages := (List.range target.stages).map (stageRange target.stages partRows halo) }

/-- Halo rows stored in each buffer. -/
def haloRows (p : Plan) : Nat := p.halo.total * p.stageCount

def topRows (p : Plan) : Nat := p.halo.top * p.stageCount

def bottomRows (p : Plan) : Nat := p.halo.bottom * p.stageCount

def bufferRows (p : Plan) : Nat := p.partRows + p.haloRows

/-- The channel from a stage to the next one. -/
def channel (stage : Nat) : String := s!"temp_out_{stage}"

/-- Which stages of a sweep have nothing to do, because their pass is past the last iteration.
Passes are compared as 64-bit words. -/
def skips (p : Plan) (firstPass iterations : BitVec 32) : Except Error (List Bool) :=
  (List.range p.stageCount).mapM fun s => do
    let pass ← Words.add (firstPass.setWidth 64) (BitVec.ofNat 64 s)
    return decide (iterations.setWidth 64 ≤ pass)

end Plan

end GridSweep
