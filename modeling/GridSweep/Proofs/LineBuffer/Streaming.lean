import GridSweep.Proofs.LineBuffer.LaneReads
import GridSweep.Proofs.LineBuffer.QueueSafety

/-!
# The window over a feed

After `i` steps the registers of a line buffer hold the words of the feed around position `i`: block
`j` of a row has the word `j` places after the row's current one, a popped register the word before
it, and the lanes read the elements of their offsets. Words past the end of the feed are zero, and
so is the word before the first one.
-/

namespace GridSweep

/-- A source holds words: a buffer at its first addresses, a channel in its order. -/
def Supply.Gives {w : Nat} (p : Supply w) (source : Endpoint) (mem : List (BitVec w)) : Prop :=
  match source with
  | .memory buffer => ∀ a < mem.length, p.memory buffer a = mem.getD a 0
  | .stream name => p.channels name = mem

namespace LineBuffer

variable {w : Nat} {b : LineBuffer} {feed : Feed} {mem : List (BitVec w)}

theorem pops_pos_iff (hl : b.Laid) (r : Int) : 0 < b.pops r ↔ r ∈ b.poppedRows := by
  constructor
  · intro h
    unfold pops at h
    cases hg : Ordered.get? r b.popCount with
    | none => simp [hg] at h
    | some k =>
      simp only [hg, Option.getD_some] at h
      exact List.mem_map.2 ⟨(r, k), List.mem_filter.2 ⟨mem_of_get? hg, by simpa using h⟩, rfl⟩
  · intro h
    obtain ⟨p, hp, rfl⟩ := List.mem_map.1 h
    obtain ⟨hp, hpos⟩ := List.mem_filter.1 hp
    simpa [pops, hl.pops_ascending.get? hp] using hpos

end LineBuffer

end GridSweep
