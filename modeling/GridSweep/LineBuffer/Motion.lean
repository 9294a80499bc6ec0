import GridSweep.LineBuffer.Basic

/-!
# Filling, moving and draining a line buffer

Before the first step the blocks and queues are filled from the feed in row order. In every step
each element takes the content of its successor in the flow, from front to back, and the last
element takes a new word from the feed. After the last step the queues are emptied.
-/

namespace GridSweep

inductive InitOp where
  /-- Throw away stream words above the window. -/
  | discard (source : Endpoint) (words : Nat)
  /-- Load one block. -/
  | load (target : String) (source : Endpoint) (address : Nat)
  /-- Push consecutive words into a queue. -/
  | fill (queue : String) (source : Endpoint) (first count : Nat)
deriving DecidableEq, Repr

inductive AdvanceOp where
  /-- A popped register takes the value `source` has before the step. -/
  | delay (target source : String)
  /-- `target` takes from its successor in the flow. -/
  | shift (target source : Element)
  /-- The last element takes word `first + step`, and zero from step `validSteps` on. -/
  | fetch (target : Element) (source : Endpoint) (first validSteps : Nat)
deriving DecidableEq, Repr

inductive DrainOp where
  | queue (name : String) (words : Nat)
  /-- Words of the stage before that this stage never took. -/
  | surplus (source : Endpoint) (words : Nat)
deriving DecidableEq, Repr

namespace LineBuffer

/-- The address of a word of a footprint row in the feed. -/
def address (b : LineBuffer) (feed : Feed) (row : Int) (word : Nat) : Except Error Nat := do
  let feedRow ← Word64.checked (Word64.signed feed.centerRow + row)
  if feedRow < 0 then throw (.emission (.aboveFeed b.var row feed.centerRow))
  else Word64.checkedCount (feedRow.toNat * b.rowWords + word)

/-- Loads the blocks of one row. -/
def loadRow (b : LineBuffer) (feed : Feed) (row : Int) (blocks : Nat) :
    Except Error (List InitOp) :=
  (List.range blocks).mapM fun i =>
    return .load (b.blockName row i) feed.endpoint (← b.address feed row i)

/-- Loads the blocks of a row and fills its queue, if it is not the bottom row. -/
def initRow (b : LineBuffer) (feed : Feed) (bottom row : Int) (blocks : Nat) :
    Except Error (List InitOp) := do
  let loads ← b.loadRow feed row blocks
  if row = bottom then return loads
  let first ← b.address feed row blocks
  return loads ++ [.fill (b.line row) feed.endpoint first (b.rowWords - blocks)]

/-- Fills every block and queue. A stream first loses the words above the window. -/
def init (b : LineBuffer) (feed : Feed) : Except Error (List InitOp) := do
  let start ← b.address feed b.topRow 0
  let discards := if feed.endpoint.isStream ∧ 0 < start then [.discard feed.endpoint start] else []
  let bottom := b.bottomRow
  let fills ← b.allRows.mapM fun (row, blocks) => b.initRow feed bottom row blocks
  return discards ++ fills.flatten

/-- The word fetched in step 0. -/
def firstFetch (b : LineBuffer) (feed : Feed) : Except Error Nat :=
  b.address feed b.bottomRow (b.blocks b.bottomRow)

/-- Popped registers take over from right to left. -/
def delays (b : LineBuffer) : List AdvanceOp :=
  b.popCount.flatMap fun (row, count) =>
    (List.range count).reverse.map fun i =>
      .delay (b.poppedName row i) (if i = 0 then b.blockName row 0 else b.poppedName row (i - 1))

/-- Each element takes from its successor. -/
def shifts : List Element → List AdvanceOp
  | target :: source :: rest => .shift target source :: shifts (source :: rest)
  | _ => []

/-- One step of the whole flow. -/
def advance (b : LineBuffer) (feed : Feed) (tripCount : Nat) : Except Error (List AdvanceOp) := do
  let moves := b.delays ++ shifts b.flow
  match b.flow.getLast? with
  | none => return moves
  | some last =>
    let first ← b.firstFetch feed
    return moves ++ [.fetch last feed.endpoint first (min tripCount (feed.words - first))]

/-- Words taken from the feed over a stage. -/
def consumed (b : LineBuffer) (feed : Feed) (tripCount : Nat) : Except Error Nat := do
  let first ← b.firstFetch feed
  return min (first + tripCount) (max feed.words first)

/-- Empties queues that come in order of rows, given the block counts from their rows on. -/
def drainQueues (b : LineBuffer) : List (Int × Nat) → List Element → List DrainOp
  | _, [] => []
  | counts, e :: es =>
    let below := counts.dropWhile (·.1 < e.row)
    let blocks := (Ordered.get? e.row below).getD 0
    .queue e.name (b.rowWords - blocks) :: b.drainQueues below es

/-- Empties every queue. -/
def drain (b : LineBuffer) : List DrainOp :=
  b.drainQueues b.blockCount (b.flow.filter (·.isQueue))

end LineBuffer

end GridSweep
