import GridSweep.Number.Word

/-!
# Storage elements and lane reads

A line buffer consists of word registers, which the lanes read, and of queues, which carry the
rest of a grid row. A lane read says where lane `k` finds its element: lanes below a split take it
from one word, the others from the next one.
-/

namespace GridSweep

/-- Bits of one element inside a word. -/
def laneBits : Int := 32

/-- Where words come from or go to. -/
inductive Endpoint where
  /-- A memory buffer, addressed by word. -/
  | memory (buffer : String)
  /-- A channel between stages, read in order. -/
  | stream (name : String)
deriving DecidableEq, Repr

def Endpoint.name : Endpoint → String
  | memory buffer => buffer
  | stream name => name

def Endpoint.isStream : Endpoint → Bool
  | memory _ => false
  | stream _ => true

/-- What feeds one line buffer within one stage. -/
structure Feed where
  endpoint : Endpoint
  /-- The feed's row that holds footprint row 0 when the stage starts. -/
  centerRow : Nat
  /-- Words the feed delivers in total. -/
  words : Nat
deriving DecidableEq, Repr

inductive ElementKind where
  /-- A word register that the lanes read. -/
  | block (index : Nat)
  /-- The part of a grid row that is in no register. -/
  | queue (depth : Nat)
  /-- The previous word of a row. -/
  | popped (index : Nat)
deriving DecidableEq, Repr

structure Element where
  name : String
  row : Int
  kind : ElementKind
deriving DecidableEq, Repr

def Element.isQueue (e : Element) : Bool :=
  match e.kind with
  | .queue _ => true
  | .block _ | .popped _ => false

/-- The bits of a lane inside a register. -/
structure LaneSlice where
  element : String
  /-- Added to the lane's own position to give the low bit. -/
  shiftBits : Int
deriving DecidableEq, Repr

/-- The high and the low bit for a lane, computed in words. -/
def LaneSlice.bitRange (s : LaneSlice) (lane : Nat) : Int × Int :=
  let low := Word64.wrap (Word64.signed lane * laneBits + s.shiftBits)
  (Word64.wrap (low + laneBits - 1), low)

inductive LaneRead where
  | direct (slice : LaneSlice)
  /-- Lanes below `split` read `low`, the others `high`. -/
  | switch (split : Nat) (low high : LaneSlice)
deriving DecidableEq, Repr

/-- The slice that a lane reads. -/
def LaneRead.resolve (r : LaneRead) (lane : Nat) : LaneSlice :=
  match r with
  | .direct slice => slice
  | .switch split low high => if lane < split then low else high

end GridSweep
