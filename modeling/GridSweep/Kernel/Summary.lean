import GridSweep.Kernel.Basic
import GridSweep.Text.Listing

/-!
# Summaries of a design

Two plain texts about a design: a short summary, and an overview that lists the line buffers and
the stages of every kernel.
-/

namespace GridSweep

/-- Lines of text, each ended. -/
def unlines (lines : List String) : String := String.join (lines.map (· ++ "\n"))

def Design.summary (d : Design) : String :=
  let h := d.header
  let kernels := Listing.commas (d.kernels.map (·.name))
  unlines [
    "Accelerator Program Summary:",
    "============================",
    s!"Kernel: {h.appName} ({h.gridRows}x{h.gridCols} grid, {h.iterations} iterations)",
    s!"Target: {h.wordBits}-bit words, {h.paraFactor} lanes, {h.stageCount} stage(s)",
    s!"Partitions: {h.kernelCount} x {h.partRows} rows, halo {h.topAppend}+{h.bottomAppend}",
    s!"Kernels: {kernels}",
    s!"Buffer: {d.host.elementsPerBuffer} elements, result in '{d.host.resultBuffer}'"]

/-- Counts per row. -/
def countsText (counts : List (Int × Nat)) : String :=
  Listing.braced (counts.map fun (row, n) => (toString row, toString n))

namespace LineBuffer

def overview (b : LineBuffer) : List String :=
  [s!"Buffer {b.var}:",
   "  Blocks per row: " ++ countsText b.blockCount,
   "  Popped per row: " ++ countsText b.popCount,
   "  Flow: " ++ " <- ".intercalate (b.flow.map (·.name))]

end LineBuffer

namespace Kernel

def overview (k : Kernel) : List String :=
  [s!"Kernel {k.name} ({k.role.name}):"] ++
  (k.stages.map fun s =>
    s!"  {s.name}: {s.validRows} rows, {s.tripCount} steps, {s.events.length} events") ++
  [s!"  Sweeps: {k.schedule.sweeps.length}"] ++
  (match k.exchange with
    | some e => [s!"  Exchange steps: {e.steps.length}"]
    | none => [])

end Kernel

/-- The overview of a design. -/
def Design.overview (d : Design) : String :=
  unlines (
    ["Accelerator Program",
     "===================",
     s!"Kernel: {d.header.appName}",
     s!"Grid: {d.header.gridRows}x{d.header.gridCols}",
     s!"Target: {d.target.wordBits}-bit words, unroll {d.target.unroll}, " ++
       s!"{d.target.stages} stage(s)",
     s!"Output row bounds: ({d.rowBounds.low}, {d.rowBounds.high})",
     s!"Result buffer: {d.host.resultBuffer}",
     ""] ++
    d.buffers.flatMap (·.overview) ++
    [""] ++
    d.kernels.flatMap (·.overview))

end GridSweep
