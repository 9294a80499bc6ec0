import GridSweep.Exchange.Protocol
import GridSweep.LineBuffer.Motion
import GridSweep.Pipeline.Schedule

/-!
# Kernels

What is generated for the accelerator: the point function, the events of every stage in the order of
their execution, a kernel per role, and the sizes the host needs to allocate buffers and to find the
result.
-/

namespace GridSweep

/-- The computation of one grid point as a C function. -/
structure PointFunction where
  name : String
  /-- Names of taps, followed by the scalars. -/
  params : List String
  scalars : List String
  /-- Names and expressions in binding order. -/
  lets : List (String × String)
  result : String
deriving DecidableEq, Repr

inductive Event where
  | declare (element : Element)
  | init (op : InitOp)
  | beginLoop (tripCount unroll : Nat)
  | laneRead (tap : String) (read : LaneRead)
  /-- Calls the point function; a stage that skips takes the forwarded tap instead. -/
  | compute (function : String) (args : List String) (skipForward : Option String)
  | store (target : Endpoint) (first : Nat)
  | advance (op : AdvanceOp)
  | endLoop
  | drain (op : DrainOp)
deriving DecidableEq, Repr

structure Stage where
  name : String
  kind : StageKind
  /-- Rows that the stage produces. -/
  validRows : Nat
  tripCount : Nat
  feeds : List (String × Feed)
  output : Endpoint
  events : List Event
deriving DecidableEq, Repr

/-- The elements that a stage declares. -/
def Stage.declarations (s : Stage) : List Element :=
  s.events.filterMap fun
    | .declare e => some e
    | _ => none

/-- The kernel of one role. -/
structure Kernel where
  role : Role
  point : PointFunction
  stages : List Stage
  /-- The channels between consecutive stages. -/
  channels : List String
  schedule : Schedule
  exchange : Option ExchangeProtocol
deriving DecidableEq, Repr

def Kernel.name (k : Kernel) : String := k.role.kernelName

/-- The constants of the generated header. -/
structure HeaderFacts where
  appName : String
  gridRows : Nat
  gridCols : Nat
  kernelCount : Nat
  partRows : Nat
  iterations : Nat
  stageCount : Nat
  wordBits : Nat
  /-- Elements in a memory word. -/
  widthFactor : Nat
  paraFactor : Nat
  /-- Halo rows above and below the owned rows, per pass. -/
  topAppend : Nat
  bottomAppend : Nat
deriving DecidableEq, Repr

/-- What the host allocates, and where it finds the result. -/
structure HostSizing where
  elementsPerBuffer : Nat
  wordsPerBuffer : Nat
  haloRows : Nat
  resultBuffer : String
deriving DecidableEq, Repr

/-- Everything that is generated for a stencil. -/
structure Design where
  target : Accelerator
  header : HeaderFacts
  buffers : List LineBuffer
  rowBounds : RowBounds
  host : HostSizing
  kernels : List Kernel
deriving DecidableEq, Repr

/-- The kernel of a role, if there is one. -/
def Design.kernel? (d : Design) (role : Role) : Option Kernel := d.kernels.find? (·.role = role)

end GridSweep
