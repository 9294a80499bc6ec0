import GridSweep.Pipeline.Plan

/-!
# Schedules

Iterations are grouped into sweeps, one kernel call each, of as many passes as there are stages.
The sweeps alternate between two buffers: each reads what the one before it wrote. Passes are
counted in words of 32 bits.
-/

namespace GridSweep

structure Sweep where
  index : Nat
  firstPass : Nat
  /-- The buffers have changed places: the output is read and the input is written. -/
  swapped : Bool
  reads : String
  writes : String
  /-- Per stage, whether its pass is past the last iteration. -/
  skips : List Bool
deriving DecidableEq, Repr

structure Schedule where
  iterations : Nat
  stageCount : Nat
  sweeps : List Sweep
deriving DecidableEq, Repr

namespace Schedule

/-- Sweep `i`, with stages and passes counted in words. -/
def sweep (iterations stages : BitVec 32) (plan : Plan) (iterated output : String)
    (i : BitVec 32) : Except Error Sweep := do
  let swapped := i % 2 == 1
  let firstPass ← Words.mul i stages
  return {
    index := i.toNat
    firstPass := firstPass.toNat
    swapped
    reads := if swapped then output else iterated
    writes := if swapped then iterated else output
    skips := ← plan.skips firstPass iterations }

/-- The schedule that alternates between the iterated input and the output; there is always one
sweep. The number of stages loses what is above 32 bits. -/
def create (iterations : BitVec 32) (plan : Plan) (iterated output : String) :
    Except Error Schedule := do
  let stages := BitVec.ofNat 32 (max plan.stageCount 1)
  let quotient ← Words.ceilDiv iterations stages
  let count := if quotient = 0 then 1 else quotient
  let sweeps ← (List.range count.toNat).mapM fun i =>
    sweep iterations stages plan iterated output (BitVec.ofNat 32 i)
  return ⟨iterations.toNat, plan.stageCount, sweeps⟩

/-- The buffer that the last sweep writes. -/
def resultBuffer (s : Schedule) : String := (s.sweeps.getLast?.map (·.writes)).getD ""

end Schedule

end GridSweep
