import GridSweep.Kernel.Summary
import GridSweep.Text.UpperCase

/-!
# C++ text of kernels and of their header

A kernel's text has the lane helpers, the point function, a function per stage, the backbone that
chains the stages, the exchange of halo rows if there is one, and the interface function, which
runs the sweeps. All kernels share a header of constants.
-/

namespace GridSweep

/-! ### The header -/

/-- Names and values of the constants. -/
def Design.constants (d : Design) : List (String × String) :=
  let h := d.header
  [("APP_NAME", Listing.quoted h.appName),
   ("GRID_ROWS", toString h.gridRows),
   ("GRID_COLS", toString h.gridCols),
   ("KERNEL_COUNT", toString h.kernelCount),
   ("PART_ROWS", toString h.partRows),
   ("ITERATIONS", toString h.iterations),
   ("STAGE_COUNT", toString h.stageCount),
   ("DWIDTH", toString h.wordBits),
   ("WIDTH_FACTOR", toString h.widthFactor),
   ("PARA_FACTOR", toString h.paraFactor),
   ("TOP_APPEND", toString h.topAppend),
   ("BOTTOM_APPEND", toString h.bottomAppend),
   ("HALO_ROWS", toString d.host.haloRows),
   ("ELEMENTS_PER_BUFFER", toString d.host.elementsPerBuffer),
   ("WORDS_PER_BUFFER", toString d.host.wordsPerBuffer),
   ("RESULT_BUFFER", Listing.quoted d.host.resultBuffer)]

/-- The header, guarded by the name of the program in upper case. -/
def Design.headerText (d : Design) : String :=
  let guard := UpperCase.ofString d.header.appName ++ "_H"
  unlines (
    [s!"#ifndef {guard}", s!"#define {guard}", ""] ++
    (d.constants.map fun (name, value) => s!"#define {name} {value}") ++
    ["", s!"#endif // {guard}"])

namespace KernelText

/-! ### Lines -/

/-- Lines one level deeper. -/
def indent (lines : List String) : List String := lines.map ("    " ++ ·)

/-- A line that opens a brace, a body, and the closing brace. -/
def block (head : String) (body : List String) : List String :=
  [head ++ " \x7b"] ++ indent body ++ ["\x7d"]

/-! ### Functions and calls -/

/-- A parameter of a function: its type, with what binds it to the name, and its name. -/
structure Param where
  type : String
  name : String
deriving DecidableEq, Repr

def Param.text (p : Param) : String := p.type ++ p.name

/-- What a caller passes for a parameter of the same name: the last word of its declaration. -/
def Param.argument (p : Param) : String :=
  String.ofList (p.name.toList.reverse.takeWhile fun c => c ≠ ' ' ∧ c ≠ '*' ∧ c ≠ '&').reverse

def wordType (d : Design) : String := s!"ap_uint<{d.target.wordBits}>"

def streamType (d : Design) : String := s!"hls::stream<{wordType d}>"

def memoryParam (d : Design) (name : String) : Param := ⟨wordType d ++ " *", name⟩

def streamParam (d : Design) (name : String) : Param := ⟨streamType d ++ " &", name⟩

def floatParam (name : String) : Param := ⟨"float ", name⟩

/-- The head of a function definition. -/
structure Signature where
  result : String
  name : String
  params : List Param
deriving DecidableEq, Repr

def Signature.text (s : Signature) : String :=
  s!"{s.result} {s.name}({Listing.commas (s.params.map Param.text)})"

structure Call where
  function : String
  args : List String
deriving DecidableEq, Repr

def Call.text (c : Call) : String := s!"{c.function}({Listing.commas c.args})"

/-- A function of the text with its body, and a blank line after it. -/
def definition (s : Signature) (body : List String) : List String := block s.text body ++ [""]

/-- Buffers, then streams, each in order of names, then scalars, and the skip flag if stages can
skip. -/
def stageParams (d : Design) (k : Kernel) (s : Stage) : List Param :=
  let endpoints := s.feeds.map (·.2.endpoint) ++ [s.output]
  let memory := Ordered.ofList ((endpoints.filter (!·.isStream)).map (·.name))
  let streams := Ordered.ofList ((endpoints.filter (·.isStream)).map (·.name))
  memory.map (memoryParam d) ++ streams.map (streamParam d) ++ k.point.scalars.map floatParam ++
    (if 1 < d.header.stageCount then [⟨"bool ", "skip"⟩] else [])

/-! ### Lane helpers and the point function -/

def laneHelpers (d : Design) : List String :=
  block s!"static inline float lane(const {wordType d} &w, int low)" [
    "union \x7b unsigned int u; float f; \x7d bits;",
    s!"bits.u = w.range(low + {laneBits - 1}, low);",
    "return bits.f;"] ++
  [""] ++
  block "static inline unsigned int lane_bits(float v)" [
    "union \x7b unsigned int u; float f; \x7d bits;",
    "bits.f = v;",
    "return bits.u;"] ++
  [""]

def pointSignature (f : PointFunction) : Signature :=
  ⟨"static float", f.name, f.params.map floatParam⟩

def pointFunction (f : PointFunction) : List String :=
  definition (pointSignature f)
    ((f.lets.map fun (name, value) => s!"float {name} = {value};") ++ [s!"return {f.result};"])

/-! ### Events -/

/-- The word at an address; a stream gives its next word. -/
def readAt (source : Endpoint) (address : String) : String :=
  match source with
  | .memory buffer => s!"{buffer}[{address}]"
  | .stream name => s!"{name}.read()"

def takeFrom (e : Element) : String := if e.isQueue then s!"{e.name}.read()" else e.name

def assign (e : Element) (value : String) : String :=
  if e.isQueue then s!"{e.name}.write({value});" else s!"{e.name} = {value};"

def laneExpr (s : LaneSlice) : String :=
  if 0 ≤ s.shiftBits then s!"lane({s.element}, k * {laneBits} + {s.shiftBits})"
  else s!"lane({s.element}, k * {laneBits} - {s.shiftBits.natAbs})"

def laneReadExpr : LaneRead → String
  | .direct slice => laneExpr slice
  | .switch split low high => s!"k < {split} ? {laneExpr low} : {laneExpr high}"

def discardWords (source : String) (words : Nat) : String :=
  s!"for (int d = 0; d < {words}; d++) {source}.read();"

def initLines : InitOp → List String
  | .discard source words => [discardWords source.name words]
  | .load target source address => [s!"{target} = {readAt source (toString address)};"]
  | .fill queue source first count =>
    let word := readAt source s!"{first} + f"
    block s!"for (int f = 0; f < {count}; f++)" [
      "#pragma HLS pipeline II=1",
      s!"{queue}.write({word});"]

def advanceLine (d : Design) : AdvanceOp → String
  | .delay target source => s!"{target} = {source};"
  | .shift target source => assign target (takeFrom source)
  | .fetch target source first validSteps =>
    let word := readAt source s!"{first} + i"
    assign target s!"i < {validSteps} ? {word} : {wordType d}(0)"

def drainLine : DrainOp → String
  | .queue name words => discardWords name words
  | .surplus source words => discardWords source.name words

def declareLines (d : Design) (e : Element) : List String :=
  match e.kind with
  | .queue depth =>
    [s!"{streamType d} {e.name};", s!"#pragma HLS stream variable={e.name} depth={depth}"]
  | .block _ | .popped _ => [s!"{wordType d} {e.name} = 0;"]

/-- A loop over the lanes of a word. -/
def laneLoop (d : Design) (body : String) : List String :=
  block s!"for (int k = 0; k < {d.target.unroll}; k++)" ["#pragma HLS unroll", body]

def laneReadLines (d : Design) (tap : String) (read : LaneRead) : List String :=
  [s!"float {tap}[{d.target.unroll}];"] ++ laneLoop d s!"{tap}[k] = {laneReadExpr read};"

/-- An argument of the point function: a tap is read per lane, a scalar is passed on. -/
def lanedArgument (taps : List String) (arg : String) : String :=
  if arg ∈ taps then arg ++ "[k]" else arg

/-- The call of the point function for one lane. -/
def pointCall (taps : List String) (function : String) (args : List String) : Call :=
  ⟨function, args.map (lanedArgument taps)⟩

def computeLines (d : Design) (taps : List String) (function : String) (args : List String)
    (skipForward : Option String) : List String :=
  let call := pointCall taps function args
  let value :=
    match skipForward with
    | some tap => s!"skip ? {tap}[k] : {call.text}"
    | none => call.text
  [s!"{wordType d} out_word;"] ++
    laneLoop d
      s!"out_word.range(k * {laneBits} + {laneBits - 1}, k * {laneBits}) = lane_bits({value});"

def storeLine : Endpoint → Nat → String
  | .memory buffer, first => s!"{buffer}[{first} + i] = out_word;"
  | .stream name, _ => s!"{name}.write(out_word);"

/-- The lines of an event that opens or closes no loop. -/
def eventLines (d : Design) (taps : List String) : Event → List String
  | .declare e => declareLines d e
  | .init op => initLines op
  | .laneRead tap read => laneReadLines d tap read
  | .compute function args skipForward => computeLines d taps function args skipForward
  | .store target first => [storeLine target first]
  | .advance op => [advanceLine d op]
  | .drain op => [drainLine op]
  | .beginLoop .. | .endLoop => []

/-- The lines of events inside `depth` loops. -/
def eventsLines (d : Design) (taps : List String) : Nat → List Event → List String
  | _, [] => []
  | depth, .beginLoop tripCount _ :: events =>
    Nat.repeat indent depth
        ([s!"for (int i = 0; i < {tripCount}; i++) \x7b"] ++
          indent ["#pragma HLS pipeline II=1"]) ++
      eventsLines d taps (depth + 1) events
  | depth, .endLoop :: events =>
    Nat.repeat indent (depth - 1) ["\x7d"] ++ eventsLines d taps (depth - 1) events
  | depth, e :: events =>
    Nat.repeat indent depth (eventLines d taps e) ++ eventsLines d taps depth events

/-- The taps that a stage reads. -/
def stageTaps (s : Stage) : List String :=
  s.events.filterMap fun
    | .laneRead tap _ => some tap
    | _ => none

def stageSignature (d : Design) (k : Kernel) (s : Stage) : Signature :=
  ⟨"static void", s.name, stageParams d k s⟩

def stageFunction (d : Design) (k : Kernel) (s : Stage) : List String :=
  definition (stageSignature d k s) (eventsLines d (stageTaps s) 0 s.events)

/-! ### The backbone -/

/-- The buffer that the last stage writes. -/
def outputVar (d : Design) (k : Kernel) : String :=
  (k.stages.getLast?.map (·.output.name)).getD d.host.resultBuffer

/-- The buffers and scalars that a kernel works on. -/
def dataParams (d : Design) (k : Kernel) : List Param :=
  d.buffers.map (fun b => memoryParam d b.var) ++ [memoryParam d (outputVar d k)] ++
    k.point.scalars.map floatParam

def backboneParams (d : Design) (k : Kernel) : List Param :=
  dataParams d k ++
    (if 1 < d.header.stageCount then
      (List.range k.stages.length).map fun s => ⟨"bool ", s!"skip_{s}"⟩
    else [])

/-- A stage is called with its own parameters, and with its own flag for skipping. -/
def stageCall (d : Design) (k : Kernel) (s : Stage) (index : Nat) : Call :=
  let args := (stageParams d k s).map (·.argument)
  ⟨s.name, if 1 < d.header.stageCount then args.dropLast ++ [s!"skip_{index}"] else args⟩

def channelLines (d : Design) (channel : String) : List String :=
  [s!"{streamType d} {channel};",
   s!"#pragma HLS stream variable={channel} depth={d.target.channelDepth}"]

def backboneSignature (d : Design) (k : Kernel) : Signature :=
  ⟨"static void", "backbone", backboneParams d k⟩

def backbone (d : Design) (k : Kernel) : List String :=
  definition (backboneSignature d k)
    (["#pragma HLS dataflow"] ++
      k.channels.flatMap (channelLines d) ++
      k.stages.zipIdx.map fun (s, i) => (stageCall d k s i).text ++ ";")

/-! ### Halo exchange -/

/-- The stream to or from a neighbour. -/
def streamName : Neighbor → Transfer → String
  | .above, .send => "to_above"
  | .above, .receive => "from_above"
  | .below, .send => "to_below"
  | .below, .receive => "from_below"

/-- The streams that a protocol uses. -/
def exchangeStreams (e : ExchangeProtocol) : List String :=
  let links : List (Neighbor × Transfer) :=
    [(.above, .send), (.above, .receive), (.below, .send), (.below, .receive)]
  links.filterMap fun (n, t) =>
    if e.steps.any fun s => s.neighbor = n ∧ s.transfer = t then some (streamName n t) else none

def exchangeStepLines (e : ExchangeProtocol) (s : ExchangeStep) : List String :=
  let first := s.firstRow * e.wordsPerRow
  let stream := streamName s.neighbor s.transfer
  block s!"for (int x = 0; x < {e.words s}; x++)" [
    "#pragma HLS pipeline II=1",
    match s.transfer with
    | .send => s!"{stream}.write(buf[{first} + x]);"
    | .receive => s!"buf[{first} + x] = {stream}.read();"]

def exchangeSignature (d : Design) (e : ExchangeProtocol) : Signature :=
  ⟨"static void", "exchange", memoryParam d "buf" :: (exchangeStreams e).map (streamParam d)⟩

def exchangeFunction (d : Design) (e : ExchangeProtocol) : List String :=
  definition (exchangeSignature d e) (e.steps.flatMap (exchangeStepLines e))

/-- The streams as arguments; where there are none, an empty argument stands in their place. -/
def streamArguments (e : ExchangeProtocol) : List String :=
  match exchangeStreams e with
  | [] => [""]
  | streams => streams

/-- The exchange of the halo rows of a buffer. -/
def exchangeCall (e : ExchangeProtocol) (buffer : String) : Call :=
  ⟨"exchange", buffer :: streamArguments e⟩

/-! ### The interface -/

/-- The call of the backbone in a sweep that reads one buffer and writes another. -/
def backboneCall (d : Design) (k : Kernel) (iterated reads writes : String) : Call :=
  let buffers := d.buffers.map fun b => if b.var = iterated then reads else b.var
  let flags :=
    if 1 < d.header.stageCount then
      (List.range d.header.stageCount).map fun s => s!"SKIPS[sweep][{s}]"
    else []
  ⟨"backbone", buffers ++ [writes] ++ k.point.scalars ++ flags⟩

def braceList (items : List String) : String := "\x7b" ++ Listing.commas items ++ "\x7d"

/-- The table of skip flags per sweep and stage. -/
def skipTable (d : Design) (k : Kernel) : List String :=
  if 1 < d.header.stageCount then
    let rows := k.schedule.sweeps.map fun s =>
      braceList (s.skips.map fun skip => if skip then "true" else "false")
    [s!"static const bool SKIPS[{rows.length}][{d.header.stageCount}] = {braceList rows};"]
  else []

/-- The exchange after a sweep that is not the last one. -/
def exchangeLines (k : Kernel) (buffer : String) : List String :=
  match k.exchange with
  | none => []
  | some e => [s!"if (sweep + 1 < {k.schedule.sweeps.length}) {(exchangeCall e buffer).text};"]

/-- The streams to the neighbours of a kernel. -/
def kernelStreams (k : Kernel) : List String :=
  match k.exchange with
  | some e => exchangeStreams e
  | none => []

def interfaceSignature (d : Design) (k : Kernel) : Signature :=
  ⟨"extern \"C\" void", k.name, dataParams d k ++ (kernelStreams k).map (streamParam d)⟩

/-- A sweep that reads one buffer and writes another, with the exchange after it. -/
def sweepLines (d : Design) (k : Kernel) (iterated reads writes : String) : List String :=
  [(backboneCall d k iterated reads writes).text ++ ";"] ++ exchangeLines k writes

/-- The kernel's entry: sweeps that read and write the buffers in turn. -/
def interface (d : Design) (k : Kernel) : List String :=
  let iterated := (d.buffers.getLast?.map (·.var)).getD ""
  let output := outputVar d k
  block (interfaceSignature d k).text
    (skipTable d k ++
      block s!"for (int sweep = 0; sweep < {k.schedule.sweeps.length}; sweep++)"
        (["if (sweep % 2 == 0) \x7b"] ++
          indent (sweepLines d k iterated iterated output) ++
          ["\x7d else \x7b"] ++
          indent (sweepLines d k iterated output iterated) ++
          ["\x7d"]))

def preamble (d : Design) (k : Kernel) : List String :=
  [s!"// {k.name} for '{d.header.appName}'",
   "#include <cmath>",
   "#include <ap_int.h>",
   "#include <hls_stream.h>",
   s!"#include \"{d.header.appName}.h\"",
   ""]

end KernelText

open KernelText in
/-- The complete text of a kernel. -/
def Design.kernelText (d : Design) (k : Kernel) : String :=
  unlines (
    preamble d k ++
    laneHelpers d ++
    pointFunction k.point ++
    k.stages.flatMap (stageFunction d k) ++
    backbone d k ++
    (match k.exchange with
      | some e => exchangeFunction d e
      | none => []) ++
    interface d k)

end GridSweep
