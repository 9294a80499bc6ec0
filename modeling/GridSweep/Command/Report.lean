import GridSweep.Kernel.Summary
import GridSweep.Kernel.Trace

/-!
# The report of a compilation

What the command prints about a design when it is asked for a summary: the header's facts, the
line buffers, and the kernels with their stages and exchange steps. A verbose report also lists
storage elements and events.
-/

namespace GridSweep.Command

def rule (length : Nat) (c : Char) : String := String.ofList (List.replicate length c)

/-- The target, printed in front of a verbose compilation. -/
def banner (target : Accelerator) : String :=
  unlines [
    "Stencil to Streaming Accelerator Compiler",
    rule 42 '=',
    "",
    s!"Target: {target.wordBits}-bit words, unroll {target.unroll}, {target.stages} stage(s)",
    ""]

def elementLine (e : Element) : String :=
  let row := Listing.padLeft 4 (toString e.row)
  let name := Listing.padRight 28 e.name
  s!"  {row}  {name} {e.kind.trace}"

def bufferLines (verbose : Bool) (b : LineBuffer) : List String :=
  ["",
   s!"Input {b.var}",
   s!"  Blocks per row: {countsText b.blockCount}",
   s!"  Popped per row: {countsText b.popCount}"] ++
  (if verbose then b.storage.map elementLine else [])

def stageLines (verbose : Bool) (s : Stage) : List String :=
  [s!"  {s.name}: {s.validRows} rows, {s.tripCount} steps, writes {s.output.name}"] ++
  (if verbose then s.events.map fun e => s!"    {e.trace}" else [])

def stepLine (s : ExchangeStep) : String :=
  s!"  {s.transfer.name} {s.neighbor.name}: rows {s.firstRow}..{s.firstRow + s.rows}"

def kernelLines (verbose : Bool) (k : Kernel) : List String :=
  ["", s!"Kernel {k.name} ({k.role.name})"] ++
  k.stages.flatMap (stageLines verbose) ++
  [s!"  Sweeps: {k.schedule.sweeps.length}"] ++
  (match k.exchange with
    | some e => e.steps.map stepLine
    | none => [])

def report (d : Design) (verbose : Bool) : String :=
  let h := d.header
  unlines (
    ["Compilation Results",
     rule 50 '=',
     "",
     s!"Kernel: {h.appName}",
     s!"Grid: {h.gridRows}x{h.gridCols}, {h.iterations} iteration(s)",
     s!"Partitions: {h.kernelCount} x {h.partRows} rows, " ++
       s!"halo {h.topAppend}+{h.bottomAppend} per pass",
     s!"Buffers: {d.host.elementsPerBuffer} elements ({d.host.wordsPerBuffer} words), " ++
       s!"result in '{d.host.resultBuffer}'",
     "",
     "Line Buffers",
     rule 50 '-'] ++
    d.buffers.flatMap (bufferLines verbose) ++
    ["",
     "Kernels",
     rule 50 '-'] ++
    d.kernels.flatMap (kernelLines verbose))

end GridSweep.Command
