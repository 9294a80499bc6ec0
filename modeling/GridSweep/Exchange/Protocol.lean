import GridSweep.Exchange.Role
import GridSweep.Pipeline.Plan

/-!
# Halo exchange

Between two sweeps a partition refreshes its halo rows from the bands above and below it, over
bounded channels that block. The order of the steps depends on the role:

- the top band sends below, then receives from below;
- the bottom band receives from above, then sends above;
- a band in between finishes with the band above, in that order, before it starts with the band
  below.
-/

namespace GridSweep

/-- Whole rows moved to or from one neighbour. -/
structure ExchangeStep where
  neighbor : Neighbor
  transfer : Transfer
  /-- The first buffer row that is sent or overwritten. -/
  firstRow : Nat
  rows : Nat
deriving DecidableEq, Repr

structure ExchangeProtocol where
  role : Role
  wordsPerRow : Nat
  steps : List ExchangeStep
deriving DecidableEq, Repr

namespace ExchangeProtocol

/-- Words that a step moves, counted in a word. -/
def words (p : ExchangeProtocol) (s : ExchangeStep) : Nat :=
  Word64.unsigned (s.rows * p.wordsPerRow)

/-- The last owned rows go down into the top halo of the band below, and its first rows come up. -/
def withBelow (plan : Plan) : List ExchangeStep :=
  [⟨.below, .send, plan.partRows, plan.topRows⟩,
   ⟨.below, .receive, plan.topRows + plan.partRows, plan.bottomRows⟩]

/-- The last rows of the band above come down into the top halo, and the first owned rows go up. -/
def withAbove (plan : Plan) : List ExchangeStep :=
  [⟨.above, .receive, 0, plan.topRows⟩,
   ⟨.above, .send, plan.topRows, plan.bottomRows⟩]

def stepsOf (role : Role) (plan : Plan) : List ExchangeStep :=
  match role with
  | .uni => []
  | .up => withBelow plan
  | .mid => withAbove plan ++ withBelow plan
  | .down => withAbove plan

/-- The protocol of a role; steps that move no rows are left out. Bands that talk to nobody have
none. -/
def forRole (role : Role) (plan : Plan) (wordsPerRow : Nat) :
    Except Error (Option ExchangeProtocol) :=
  if role = .uni then .ok none
  else if plan.partRows < plan.topRows ∨ plan.partRows < plan.bottomRows then
    .error (.config (.haloTooLarge plan.partRows plan.topRows plan.bottomRows))
  else .ok (some ⟨role, wordsPerRow, (stepsOf role plan).filter (0 < ·.rows)⟩)

end ExchangeProtocol

end GridSweep
