import GridSweep.Json.Printer
import GridSweep.Kernel.Summary
import GridSweep.LineBuffer.Motion

/-!
# JSON form of a design

Alternatives are objects with a field that names them; maps have their keys as strings.
-/

namespace GridSweep

/-! ### Line buffers -/

def Endpoint.toJson : Endpoint → Json
  | .memory buffer => .object [("kind", .string "memory"), ("buffer", .string buffer)]
  | .stream name => .object [("kind", .string "stream"), ("name", .string name)]

def Feed.toJson (f : Feed) : Json :=
  .object [("endpoint", f.endpoint.toJson), ("center_row", .nat f.centerRow),
    ("words", .nat f.words)]

/-- The kind's fields stand beside those of the element. -/
def ElementKind.toFields : ElementKind → List (String × Json)
  | .block index => [("kind", .string "block"), ("index", .nat index)]
  | .queue depth => [("kind", .string "queue"), ("depth", .nat depth)]
  | .popped index => [("kind", .string "popped"), ("index", .nat index)]

def Element.toJson (e : Element) : Json :=
  .object ([("name", .string e.name), ("row", .int e.row)] ++ e.kind.toFields)

def LaneSlice.toFields (s : LaneSlice) : List (String × Json) :=
  [("element", .string s.element), ("shift_bits", .int s.shiftBits)]

def LaneRead.toJson : LaneRead → Json
  | .direct slice => .object (("kind", .string "direct") :: slice.toFields)
  | .switch split low high =>
    .object [("kind", .string "switch"), ("split", .nat split), ("low", .object low.toFields),
      ("high", .object high.toFields)]

def InitOp.toJson : InitOp → Json
  | .discard source words =>
    .object [("op", .string "discard"), ("source", source.toJson), ("words", .nat words)]
  | .load target source address =>
    .object [("op", .string "load"), ("target", .string target), ("source", source.toJson),
      ("address", .nat address)]
  | .fill queue source first count =>
    .object [("op", .string "fill"), ("queue", .string queue), ("source", source.toJson),
      ("first", .nat first), ("count", .nat count)]

def AdvanceOp.toJson : AdvanceOp → Json
  | .delay target source =>
    .object [("op", .string "delay"), ("target", .string target), ("source", .string source)]
  | .shift target source =>
    .object [("op", .string "shift"), ("target", target.toJson), ("source", source.toJson)]
  | .fetch target source first validSteps =>
    .object [("op", .string "fetch"), ("target", target.toJson), ("source", source.toJson),
      ("first", .nat first), ("valid_steps", .nat validSteps)]

def DrainOp.toJson : DrainOp → Json
  | .queue name words =>
    .object [("op", .string "queue"), ("queue", .string name), ("words", .nat words)]
  | .surplus source words =>
    .object [("op", .string "upstream"), ("source", source.toJson), ("words", .nat words)]

def LineBuffer.toJson (b : LineBuffer) : Json :=
  let counts (m : List (Int × Nat)) : Json := .object (m.map fun (k, n) => (toString k, .nat n))
  .object [
    ("var", .string b.var),
    ("rows", .object (b.rows.map fun (row, cols) => (toString row, .ints cols))),
    ("unroll", .nat b.unroll),
    ("row_words", .nat b.rowWords),
    ("block_count", counts b.blockCount),
    ("pop_count", counts b.popCount),
    ("flow", .array (b.flow.map (·.toJson))),
    ("popped", .array (b.popped.map (·.toJson)))]

def RowBounds.toJson (r : RowBounds) : Json := .object [("row_bounds", .ints [r.low, r.high])]

/-! ### Plans and schedules -/

def StageKind.toJson : StageKind → Json
  | .single => .object [("kind", .string "single")]
  | .first => .object [("kind", .string "in")]
  | .middle index => .object [("kind", .string "mid"), ("index", .nat index)]
  | .last => .object [("kind", .string "out")]

def StageRange.toJson (r : StageRange) : Json :=
  .object [("index", .nat r.index), ("kind", r.kind.toJson), ("first_row", .nat r.firstRow),
    ("valid_rows", .nat r.validRows)]

def Halo.toJson (h : Halo) : Json := .object [("top", .nat h.top), ("bottom", .nat h.bottom)]

def Plan.toJson (p : Plan) : Json :=
  .object [("stage_count", .nat p.stageCount), ("part_rows", .nat p.partRows),
    ("halo", p.halo.toJson), ("stages", .array (p.stages.map (·.toJson)))]

def Sweep.toJson (s : Sweep) : Json :=
  .object [("index", .nat s.index), ("first_pass", .nat s.firstPass), ("swapped", .bool s.swapped),
    ("reads", .string s.reads), ("writes", .string s.writes), ("skips", .array (s.skips.map .bool))]

def Schedule.toJson (s : Schedule) : Json :=
  .object [("iterations", .nat s.iterations), ("stage_count", .nat s.stageCount),
    ("sweeps", .array (s.sweeps.map (·.toJson)))]

/-! ### Roles and exchange protocols -/

def Role.toJson : Role → Json
  | .uni => .string "uni"
  | .up => .string "up"
  | .mid => .string "mid"
  | .down => .string "down"

def Neighbor.toJson : Neighbor → Json
  | .above => .string "above"
  | .below => .string "below"

def Transfer.toJson : Transfer → Json
  | .send => .string "send"
  | .receive => .string "receive"

def ExchangeStep.toJson (s : ExchangeStep) : Json :=
  .object [("neighbor", s.neighbor.toJson), ("transfer", s.transfer.toJson),
    ("first_row", .nat s.firstRow), ("rows", .nat s.rows)]

def ExchangeProtocol.toJson (p : ExchangeProtocol) : Json :=
  .object [("role", p.role.toJson), ("words_per_row", .nat p.wordsPerRow),
    ("steps", .array (p.steps.map (·.toJson)))]

/-! ### Kernels -/

def PointFunction.toJson (f : PointFunction) : Json :=
  .object [
    ("name", .string f.name),
    ("params", .strings f.params),
    ("scalars", .strings f.scalars),
    ("lets", .array (f.lets.map fun (name, value) => .strings [name, value])),
    ("result", .string f.result)]

def Event.toJson : Event → Json
  | .declare element => .object [("event", .string "declare"), ("element", element.toJson)]
  | .init op => .object [("event", .string "init"), ("op", op.toJson)]
  | .beginLoop tripCount unroll =>
    .object [("event", .string "begin_loop"), ("trip_count", .nat tripCount),
      ("unroll", .nat unroll)]
  | .laneRead tap read =>
    .object [("event", .string "lane_read"), ("port", .string tap), ("read", read.toJson)]
  | .compute function args skipForward =>
    .object [("event", .string "compute"), ("function", .string function), ("args", .strings args),
      ("skip_forward", .optional .string skipForward)]
  | .store target first =>
    .object [("event", .string "store"), ("target", target.toJson), ("first", .nat first)]
  | .advance op => .object [("event", .string "advance"), ("op", op.toJson)]
  | .endLoop => .object [("event", .string "end_loop")]
  | .drain op => .object [("event", .string "drain"), ("op", op.toJson)]

def Stage.toJson (s : Stage) : Json :=
  .object [
    ("name", .string s.name),
    ("kind", s.kind.toJson),
    ("valid_rows", .nat s.validRows),
    ("trip_count", .nat s.tripCount),
    ("feeds", .array (s.feeds.map fun (var, f) => .array [.string var, f.toJson])),
    ("output", s.output.toJson),
    ("events", .array (s.events.map (·.toJson)))]

def Kernel.toJson (k : Kernel) : Json :=
  .object [
    ("role", k.role.toJson),
    ("name", .string k.name),
    ("stencil_fn", k.point.toJson),
    ("stages", .array (k.stages.map (·.toJson))),
    ("channels", .strings k.channels),
    ("schedule", k.schedule.toJson),
    ("exchange", .optional ExchangeProtocol.toJson k.exchange)]

def HeaderFacts.toJson (h : HeaderFacts) : Json :=
  .object [
    ("app_name", .string h.appName),
    ("grid_rows", .nat h.gridRows),
    ("grid_cols", .nat h.gridCols),
    ("kernel_count", .nat h.kernelCount),
    ("part_rows", .nat h.partRows),
    ("iterations", .nat h.iterations),
    ("stage_count", .nat h.stageCount),
    ("word_bits", .nat h.wordBits),
    ("width_factor", .nat h.widthFactor),
    ("para_factor", .nat h.paraFactor),
    ("top_append", .nat h.topAppend),
    ("bottom_append", .nat h.bottomAppend)]

def HostSizing.toJson (h : HostSizing) : Json :=
  .object [
    ("elements_per_buffer", .nat h.elementsPerBuffer),
    ("words_per_buffer", .nat h.wordsPerBuffer),
    ("halo_rows", .nat h.haloRows),
    ("result_buffer", .string h.resultBuffer)]

def Design.toJson (d : Design) : Json :=
  .object [
    ("config", d.target.toJson),
    ("header", d.header.toJson),
    ("buffers", .array (d.buffers.map (·.toJson))),
    ("output_buffer", d.rowBounds.toJson),
    ("host", d.host.toJson),
    ("kernels", .array (d.kernels.map (·.toJson))),
    ("summary", .string d.summary)]

end GridSweep
