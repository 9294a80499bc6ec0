import GridSweep.Proofs.Exchange.Progress

/-!
# What an exchange delivers

Buffers are read row by row here: partition `p` owns `plan.partRows` rows, which stand behind the
`plan.topRows` rows of its top halo. An exchange that is over, in whatever order the partitions took
turns, has put the last owned rows of a partition into the top halo of the one below it and the
first owned rows into the bottom halo of the one above it. Nothing else has changed, and two
neighbours count the same words on each channel between them.
-/

namespace GridSweep

namespace Exchange

variable {α : Type} {plan : Plan} {n sweeps wordsPerRow capacity : Nat}
  {chain : List ExchangeProtocol} {orig : Nat → Nat → α} {t : Transit α}

/-- A row of a buffer, word by word. -/
def row (wordsPerRow : Nat) (buffer : Nat → α) (r : Nat) : List α :=
  (List.range wordsPerRow).map fun x => buffer (r * wordsPerRow + x)

end Exchange

end GridSweep
