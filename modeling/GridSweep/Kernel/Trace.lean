import GridSweep.Kernel.Basic
import GridSweep.Text.Listing

/-!
# Events as text

The events of a stage, one line each, as they are listed for a reader.
-/

namespace GridSweep

open Listing (quoted)

def Endpoint.trace : Endpoint → String
  | .memory buffer => Record.named "Memory" [("buffer", quoted buffer)]
  | .stream name => Record.named "Stream" [("name", quoted name)]

def ElementKind.trace : ElementKind → String
  | .block index => Record.named "Block" [("index", toString index)]
  | .queue depth => Record.named "Queue" [("depth", toString depth)]
  | .popped index => Record.named "Popped" [("index", toString index)]

def Element.trace (e : Element) : String :=
  Record.named "StorageElement"
    [("name", quoted e.name), ("row", toString e.row), ("kind", e.kind.trace)]

def LaneSlice.trace (s : LaneSlice) : String :=
  Record.named "LaneSlice" [("element", quoted s.element), ("shift_bits", toString s.shiftBits)]

def LaneRead.trace : LaneRead → String
  | .direct slice => Record.wrapped "Direct" slice.trace
  | .switch split low high =>
    Record.named "Switch" [("split", toString split), ("low", low.trace), ("high", high.trace)]

def InitOp.trace : InitOp → String
  | .discard source words =>
    Record.named "Discard" [("source", source.trace), ("words", toString words)]
  | .load target source address =>
    Record.named "Load"
      [("target", quoted target), ("source", source.trace), ("address", toString address)]
  | .fill queue source first count =>
    Record.named "Fill"
      [("queue", quoted queue), ("source", source.trace), ("first", toString first),
       ("count", toString count)]

def AdvanceOp.trace : AdvanceOp → String
  | .delay target source =>
    Record.named "Delay" [("target", quoted target), ("source", quoted source)]
  | .shift target source =>
    Record.named "Shift" [("target", target.trace), ("source", source.trace)]
  | .fetch target source first validSteps =>
    Record.named "Fetch"
      [("target", target.trace), ("source", source.trace), ("first", toString first),
       ("valid_steps", toString validSteps)]

def DrainOp.trace : DrainOp → String
  | .queue name words => Record.named "Queue" [("queue", quoted name), ("words", toString words)]
  | .surplus source words =>
    Record.named "Upstream" [("source", source.trace), ("words", toString words)]

def Event.trace : Event → String
  | .declare element => Record.named "Declare" [("element", element.trace)]
  | .init op => Record.named "Init" [("op", op.trace)]
  | .beginLoop tripCount unroll =>
    Record.named "BeginLoop" [("trip_count", toString tripCount), ("unroll", toString unroll)]
  | .laneRead tap read => Record.named "LaneRead" [("port", quoted tap), ("read", read.trace)]
  | .compute function args skipForward =>
    Record.named "Compute"
      [("function", quoted function), ("args", Listing.bracketed (args.map quoted)),
       ("skip_forward", Record.optional (skipForward.map quoted))]
  | .store target first =>
    Record.named "Store" [("target", target.trace), ("first", toString first)]
  | .advance op => Record.named "Advance" [("op", op.trace)]
  | .endLoop => "EndLoop"
  | .drain op => Record.named "Drain" [("op", op.trace)]

end GridSweep
