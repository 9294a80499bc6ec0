import GridSweep.Exchange.Progress
import GridSweep.Kernel.Basic
import GridSweep.Node.Lower
import GridSweep.Node.Printer
import GridSweep.Stencil.Analysis
import GridSweep.Surface.Parser

/-!
# Generating kernels

Puts the pieces together: a line buffer per input, a chain of stages that read their feeds, run
the lanes through the point function and pass the results on, and a kernel for every role that
occurs. The halo exchange of all partitions is run once to make sure that it completes.
-/

namespace GridSweep

/-- The lane value that a skipping stage passes on. -/
structure Forward where
  tap : String
  /-- The value is not part of the footprint and is read for forwarding only. -/
  extra : Bool
deriving DecidableEq, Repr

namespace Generate

/-- A skipping stage forwards the iterated variable; with a single stage nothing skips. -/
def forward? (target : Accelerator) (s : Stencil) : Option Forward :=
  if target.stages ≤ 1 then none
  else
    let var := s.iteratedVar
    let read := ((s.refs.get? var).getD []).any (·.isOrigin)
    some ⟨Offset.tapName var (List.replicate s.dims 0), !read⟩

/-- Whether the stages read the iterated variable at the output point for forwarding only. -/
def hasExtra (forward : Option Forward) : Bool := forward.any (·.extra)

/-- The line buffer of one input. -/
def buffer (target : Accelerator) (s : Stencil) (forward : Option Forward) (var : String) :
    Except Error LineBuffer := do
  match s.refs.get? var with
  | none => throw (.emptyFootprint var)
  | some offsets =>
    let rows ← RowRefs.ofOffsets offsets
    let rows := if var = s.iteratedVar ∧ hasExtra forward then rows.insert 0 0 else rows
    let b ← LineBuffer.synthesize var rows target s.gridCols
    b.checkFits s.gridCols target.lanes
    return b

/-- The line buffers by name. -/
def buffers (target : Accelerator) (s : Stencil) (forward : Option Forward) :
    Except Error (List (String × LineBuffer)) :=
  s.inputVars.foldlM (fun m var => return Ordered.put var (← buffer target s forward var) m) []

/-- The computation of a point with its references replaced by taps. -/
def pointFunction (s : Stencil) : Except Error PointFunction := do
  let lets ← s.output.bindings.mapM fun b =>
    return (b.name, (← b.value.renameRefs s.outputIdx).text)
  let result ← s.output.value.renameRefs s.outputIdx
  return {
    name := s.kernelName ++ "_point"
    params := s.taps.map (·.name) ++ s.scalars
    scalars := s.scalars
    lets
    result := result.text }

/-- Where a variable's words come from. The iterated variable of a later stage comes from the stage
before. -/
def feed (plan : Plan) (stage : StageRange) (var iterated : String) (rowWords : Nat) : Feed :=
  if stage.index = 0 ∨ var ≠ iterated then
    ⟨.memory var, stage.firstRow, plan.bufferRows * rowWords⟩
  else
    let previous := Plan.stageRange plan.stageCount plan.partRows plan.halo (stage.index - 1)
    ⟨.stream (Plan.channel previous.index), stage.firstRow - previous.firstRow,
      previous.validRows * rowWords⟩

/-- Where a stage's results go, and the address of the first one. -/
def stageOutput (s : Stencil) (stage : StageRange) (rowWords : Nat) : Endpoint × Nat :=
  match stage.kind with
  | .single | .last => (.memory s.outputVar, stage.firstRow * rowWords)
  | .first | .middle _ => (.stream (Plan.channel stage.index), 0)

/-- The lane reads of all taps, and of the forwarded one if it is no tap. -/
def laneReads (s : Stencil) (buffers : List (String × LineBuffer)) (forward : Option Forward) :
    Except Error (List Event) := do
  let reads ← s.taps.mapM fun t => do
    match Ordered.get? t.var buffers with
    | none => throw (.emission (.noBuffer t.var))
    | some b => return Event.laneRead t.name (← b.laneRead t.offset)
  match forward, Ordered.get? s.iteratedVar buffers with
  | some f, some b =>
    if f.extra then return reads ++ [.laneRead f.tap (← b.laneRead [0, 0])] else return reads
  | _, _ => return reads

/-- What a stage empties at its end: its queues if it runs again, and what is left of its stream. -/
def drains (repeated : Bool) (tripCount : Nat) (b : LineBuffer) (f : Feed) :
    Except Error (List DrainOp) := do
  let queues := if repeated then b.drain else []
  if f.endpoint.isStream then
    let leftover := f.words - (← b.consumed f tripCount)
    return if 0 < leftover then queues ++ [.surplus f.endpoint leftover] else queues
  else return queues

/-- The events of one stage. -/
def stage (target : Accelerator) (s : Stencil) (plan : Plan) (point : PointFunction)
    (buffers : List (String × LineBuffer)) (forward : Option Forward) (range : StageRange) :
    Except Error Stage := do
  let rowWords := s.gridCols / target.lanes
  let tripCount := range.validRows * rowWords
  let ordered := s.inputVars.filterMap (Ordered.get? · buffers)
  let feeds := ordered.map fun b => feed plan range b.var s.iteratedVar rowWords
  let fed := ordered.zip feeds
  let (output, first) := stageOutput s range rowWords
  let inits ← fed.mapM fun (b, f) => b.init f
  let reads ← laneReads s buffers forward
  let advances ← fed.mapM fun (b, f) => b.advance f tripCount
  let drained ← fed.mapM fun (b, f) => drains (1 < s.iterate) tripCount b f
  let events :=
    (ordered.flatMap fun b => b.storage.map .declare) ++
    inits.flatten.map .init ++
    [.beginLoop tripCount target.unroll] ++
    reads ++
    [.compute point.name point.params (forward.map (·.tap)), .store output first] ++
    advances.flatten.map .advance ++
    [.endLoop] ++
    drained.flatten.map .drain
  return {
    name := range.name
    kind := range.kind
    validRows := range.validRows
    tripCount
    feeds := (ordered.map (·.var)).zip feeds
    output
    events }

/-- The protocols of all partitions that exchange rows. -/
def exchangeChain (roles : List Role) (plan : Plan) (rowWords : Nat) :
    Except Error (List ExchangeProtocol) := do
  return (← roles.mapM (ExchangeProtocol.forRole · plan rowWords)).filterMap id

def headerFacts (target : Accelerator) (s : Stencil) (plan : Plan) : HeaderFacts where
  appName := s.kernelName
  gridRows := s.gridRows
  gridCols := s.gridCols
  kernelCount := s.partitions
  partRows := plan.partRows
  iterations := s.iterate
  stageCount := plan.stageCount
  wordBits := target.wordBits
  widthFactor := target.lanes
  paraFactor := target.unroll
  topAppend := plan.halo.top
  bottomAppend := plan.halo.bottom

def hostSizing (target : Accelerator) (s : Stencil) (plan : Plan) (schedule : Schedule) :
    HostSizing :=
  let elements := s.gridCols * plan.partRows + plan.haloRows * s.gridCols
  { elementsPerBuffer := elements
    wordsPerBuffer := elements / target.lanes
    haloRows := plan.haloRows
    resultBuffer := schedule.resultBuffer }

end Generate

open Generate in
/-- The design of a stencil for a target. -/
def Stencil.generate (s : Stencil) (target : Accelerator) : Except Error Design := do
  target.validate
  s.ensure2d
  let rowWords := s.gridCols / target.lanes
  let forward := forward? target s
  let lineBuffers ← buffers target s forward
  let rowBounds := RowBounds.ofBuffers (lineBuffers.map (·.2))
  let plan ← Plan.create target s.partRows ⟨rowBounds.topHalo, rowBounds.bottomHalo⟩
  let schedule ← Schedule.create (BitVec.ofNat 32 s.iterate) plan s.iteratedVar s.outputVar
  let point ← pointFunction s
  let stages ← plan.stages.mapM (stage target s plan point lineBuffers forward)
  let sweeps := schedule.sweeps.length
  let chain ← exchangeChain (Role.assign s.partitions sweeps) plan rowWords
  discard (Exchange.checkProgress chain target.channelDepth)
  let kernels ← (Role.distinct s.partitions sweeps).mapM fun role =>
    return {
      role
      point
      stages
      channels := (List.range (plan.stageCount - 1)).map Plan.channel
      schedule
      exchange := ← ExchangeProtocol.forRole role plan rowWords }
  return {
    target
    header := headerFacts target s plan
    buffers := s.inputVars.filterMap (Ordered.get? · lineBuffers)
    rowBounds
    host := hostSizing target s plan schedule
    kernels }

/-- The stencil of a surface program. -/
def Surface.Program.analyze (p : Surface.Program) : Except Error Stencil := do
  GridSweep.Program.analyze (← p.lower)

/-- The design of a surface program. -/
def Surface.Program.compile (p : Surface.Program) (target : Accelerator) : Except Error Design := do
  (← p.analyze).generate target

/-- The stencil written in a source text. -/
def analyzeSource (source : String) : Except Error Stencil := do
  (← Surface.parseProgram source).analyze

/-- The design of the stencil written in a source text. -/
def compileSource (source : String) (target : Accelerator) : Except Error Design := do
  (← analyzeSource source).generate target

end GridSweep
