import GridSweep.Proofs.Kernel.StagePass

/-!
# A kernel call computes the stencil

The stages of a generated kernel run one after the other. After `n` of them the channel to the next
stage has the words of `n` passes, the other channels are empty and the memory is as before. The
last stage writes the owned rows of the output.
-/

namespace GridSweep

namespace Generate

variable {target : Accelerator} {s : Stencil} {m : List (String × LineBuffer)} {plan : Plan}
  {design : Design} {w n : Nat} {k : KernelCall} {memory : String → Nat → BitVec w}
  {point : PointFunction} {stage : Stage}

/-! ## The results of a stage -/

theorem Calls.stageOutput_eq (hk : Calls k target s plan memory) (hn : n < plan.stageCount)
    (rowWords : Nat) :
    stageOutput s (rangeOf plan n) rowWords = if n + 1 = k.header.stageCount then
      (.memory s.outputVar, k.header.startRow (n + 1) * rowWords)
    else (.stream (Plan.channel n), 0) := by
  rw [hk.header]
  exact Generate.stageOutput_eq hn rowWords

/-- What the memory and the channels hold after `n` stages. -/
structure Between (s : Stencil) (rowWords : Nat) (k : KernelCall)
    (memory : String → Nat → BitVec w) (n : Nat) (q : Supply w) : Prop where
  memory : ∀ buffer a, q.memory buffer a =
    if n = k.header.stageCount ∧ buffer = s.outputVar ∧ k.header.startRow n * rowWords ≤ a ∧
      a < k.header.stopRow n * rowWords then k.passWord w n a else memory buffer a
  channels : ∀ name, q.channels name =
    if 0 < n ∧ n < k.header.stageCount ∧ name = Plan.channel (n - 1) then
      (List.range (k.header.knownRows n * rowWords)).map fun i =>
        k.passWord w n (k.header.startRow n * rowWords + i)
    else []

theorem Between.serves (hk : Calls k target s plan memory) (hn : n < plan.stageCount) {q : Supply w}
    (hq : Between s (s.gridCols / target.lanes) k memory n q) (b : LineBuffer) :
    (fedIn target s plan k memory n b).Serves q := by
  have hfeed := hk.feed_eq hn b.var (s.gridCols / target.lanes)
  have hcount : n < k.header.stageCount := by rwa [hk.header]
  unfold Fed.Serves fedIn
  dsimp only
  by_cases hfrom : n = 0 ∨ b.var ≠ k.iterated
  · rw [hfeed, if_pos hfrom]
    simp only [if_pos hfrom]
    funext a
    rw [hq.memory, if_neg (by omega)]
  · rw [hfeed, if_neg hfrom]
    simp only [if_neg hfrom]
    refine (hq.channels _).trans ?_
    rw [if_pos ⟨by omega, hcount, rfl⟩, Nat.sub_zero, List.range_eq_range']

end Generate

/-- The call of a kernel on memory contents, with the skip flags of a sweep. -/
def Design.call {w : Nat} (design : Design) (s : Stencil) (kernel : Kernel) (c : Computation)
    (skips : List Bool) (memory : String → Nat → BitVec w) : KernelCall where
  header := design.header
  iterated := s.iteratedVar
  ports := Generate.ports design.target s
  params := kernel.point.params
  computation := c
  skips
  grid v p := element (memory v (p / design.header.widthFactor)) (p % design.header.widthFactor)

section Calls

open Generate

variable {target : Accelerator} {s : Stencil} {design : Design} {kernel : Kernel} {sweep : Sweep}

end Calls

def total : Computation := ⟨fun xs => xs.foldl (· + ·) 0, fun _ => 0⟩

end GridSweep
