import GridSweep.Accelerator
import GridSweep.LineBuffer.Element
import GridSweep.Number.Checked
import GridSweep.Stencil.Footprint

/-!
# Line buffers

The footprint of an input becomes a chain of storage elements, one segment per footprint row from
the top row down:

    [block 0 .. block n-1][queue]   top row
    [block 0 .. block n-1][queue]   ...
    [block 0 .. block n-1]          bottom row, fed from memory or from a stream

Every segment but the last holds one grid row of words, so a word that enters block 0 of a row
leaves the queue of the row above it one grid row later. A row has blocks up to its rightmost
column offset; a row inside the footprint that is never read is only passed through. A popped
register keeps the word that left block 0, for negative column offsets.
-/

namespace GridSweep

structure LineBuffer where
  var : String
  rows : RowRefs
  unroll : Nat
  /-- Words in a grid row. -/
  rowWords : Nat
  /-- Blocks per row; none for a row that is only passed through. -/
  blockCount : List (Int × Nat)
  /-- Popped registers of the rows that have negative column offsets. -/
  popCount : List (Int × Nat)
  flow : List Element
  popped : List Element
deriving DecidableEq, Repr

namespace LineBuffer

/-! ### Counting -/

/-- The quotient rounded up when it is positive, and toward zero otherwise. -/
def ceilDiv (a b : Int) : Int :=
  let q := a.tdiv b
  if a.tmod b ≠ 0 ∧ (0 < a ↔ 0 < b) then q + 1 else q

/-- The integers from `top` to `bottom`. -/
def rowRange (top bottom : Int) : List Int :=
  (List.range (bottom - top + 1).toNat).map fun (i : Nat) => top + (i : Int)

/-- Blocks that reach the rightmost column; a row that is read has at least one. -/
def blocksFor (u : Int) (cols : List Int) : Except Error Nat :=
  return (max (← Word64.checked (ceilDiv (cols.max?.getD 0) u + 1)) 1).toNat

/-- Popped registers that reach the leftmost column, if that is negative. -/
def popsFor? (u : Int) (cols : List Int) : Except Error (Option Nat) := do
  let leftmost := cols.min?.getD 0
  if leftmost < 0 then
    let distance ← Word64.checked (-leftmost)
    return some (Word64.unsigned (ceilDiv distance u))
  else return none

/-- The registers of a row that is read. -/
structure RowCount where
  row : Int
  blocks : Nat
  /-- None for a row without negative column offsets. -/
  pops : Option Nat
deriving DecidableEq, Repr

/-- Counts the registers of one row; more than one popped register is not supported. -/
def countRow (var : String) (u : Int) (row : Int × List Int) : Except Error RowCount := do
  let blocks ← blocksFor u row.2
  let pops ← popsFor? u row.2
  if pops.any (1 < ·) then throw (.unsupportedLookback var row.1 (row.2.min?.getD 0))
  return ⟨row.1, blocks, pops⟩

/-- Counts for all rows from the first to the last one; a row without a count has none. -/
def fillRows : List (Int × Nat) → List (Int × Nat)
  | (row, count) :: (next, more) :: rest =>
    (row, count) :: ((rowRange (row + 1) (next - 1)).map (·, 0) ++ fillRows ((next, more) :: rest))
  | rows => rows

/-- The block counts of all rows from the top row to the bottom row. -/
def blockCounts (counts : List RowCount) : List (Int × Nat) :=
  fillRows (counts.map fun c => (c.row, c.blocks))

/-- The popped registers of the rows that have a count of them. -/
def popCounts (counts : List RowCount) : List (Int × Nat) :=
  counts.filterMap fun c => c.pops.map (c.row, ·)

/-! ### Rows and names -/

def topRow (b : LineBuffer) : Int := (b.blockCount.head?.map (·.1)).getD 0

def bottomRow (b : LineBuffer) : Int := (b.blockCount.getLast?.map (·.1)).getD 0

/-- The rows from top to bottom with their blocks. -/
def allRows (b : LineBuffer) : List (Int × Nat) := fillRows b.blockCount

def blocks (b : LineBuffer) (row : Int) : Nat := (Ordered.get? row b.blockCount).getD 0

/-- Popped registers of a row. -/
def pops (b : LineBuffer) (row : Int) : Nat := (Ordered.get? row b.popCount).getD 0

/-- The name of a row's queue. -/
def line (b : LineBuffer) (row : Int) : String := b.var ++ "_line_" ++ Offset.coordinateName row

def blockName (b : LineBuffer) (row : Int) (index : Nat) : String :=
  b.line row ++ "_block_" ++ toString index

def poppedName (b : LineBuffer) (row : Int) (index : Nat) : String :=
  b.line row ++ "_block_m" ++ toString (index + 1)

/-- Room for the part of a grid row that is not in its blocks, and for the word that enters before
one leaves. -/
def queueDepth (b : LineBuffer) (blocks : Nat) : Nat := b.rowWords + 1 - blocks

/-! ### Layout -/

def blockElements (b : LineBuffer) (row : Int) (blocks : Nat) : List Element :=
  (List.range blocks).map fun i => ⟨b.blockName row i, row, .block i⟩

/-- The elements of rows from top to bottom; the bottom row is fed directly and has no queue. -/
def flowOf (b : LineBuffer) : List (Int × Nat) → List Element
  | [] => []
  | [(row, blocks)] => b.blockElements row blocks
  | (row, blocks) :: below =>
    b.blockElements row blocks ++
      ⟨b.line row, row, .queue (b.queueDepth blocks)⟩ :: b.flowOf below

def buildFlow (b : LineBuffer) : List Element := b.flowOf b.allRows

def buildPopped (b : LineBuffer) : List Element :=
  b.popCount.flatMap fun (row, count) =>
    (List.range count).map fun i => ⟨b.poppedName row i, row, .popped i⟩

/-- The line buffer of a footprint. -/
def synthesize (var : String) (rows : RowRefs) (target : Accelerator) (gridCols : Nat) :
    Except Error LineBuffer :=
  match rows with
  | [] => .error (.emptyFootprint var)
  | _ :: _ => do
    let u := Word64.signed target.unroll
    if target.lanes = 0 ∨ u = 0 then throw (.limit .zeroDivisor)
    let counts ← rows.mapM (countRow var u)
    let b : LineBuffer := {
      var
      rows
      unroll := target.unroll
      rowWords := gridCols / target.lanes
      blockCount := blockCounts counts
      popCount := popCounts counts
      flow := []
      popped := [] }
    return { b with flow := b.buildFlow, popped := b.buildPopped }

/-- Every element to declare, the flow first. -/
def storage (b : LineBuffer) : List Element := b.flow ++ b.popped

/-- A grid row is a whole number of words and holds the blocks of every row. -/
def checkFits (b : LineBuffer) (gridCols lanes : Nat) : Except Error Unit :=
  let widest := (b.blockCount.map (·.2)).max?.getD 0
  if lanes = 0 then .error (.limit .zeroDivisor)
  else if gridCols % lanes ≠ 0 then .error (.config (.partialWord gridCols lanes))
  else if b.rowWords < widest then .error (.config (.rowTooNarrow b.var widest b.rowWords))
  else .ok ()

/-! ### Lane reads -/

/-- The register that holds a word of a row, counted from the current position. -/
def wordElement (b : LineBuffer) (row word : Int) : Except Error String := do
  if 0 ≤ word ∧ word < b.blocks row then return b.blockName row word.toNat
  let pop := (← Word64.checked (-word)) - 1
  if word < 0 ∧ pop < b.pops row then return b.poppedName row pop.toNat
  throw (.emission (.noStorage b.var row word))

/-- The bits of an element of a word, relative to lane 0. -/
def laneShift (element : Int) : Except Error Int := Word64.checked (element * laneBits)

/-- How the lanes read one offset. Lane `k` reads element `k + col` of the row; it lies in the
word of `col` or, past the end of that, in the next one. -/
def laneRead (b : LineBuffer) (offset : Offset) : Except Error LaneRead := do
  let row := offset.row
  let col := offset.col
  if ((Ordered.get? row b.rows).getD []).contains col then
    let u := Word64.signed b.unroll
    let word ← Word64.checked (col / u)
    let rem := col % u
    let low : LaneSlice := ⟨← b.wordElement row word, ← laneShift rem⟩
    if rem = 0 then return .direct low
    let next ← Word64.checked (word + 1)
    let high : LaneSlice := ⟨← b.wordElement row next, ← laneShift (rem - u)⟩
    return .switch (Word64.unsigned (u - rem)) low high
  else throw (.emission (.neverRead b.var offset))

end LineBuffer

/-- The rows that any input reads, around the output row. -/
structure RowBounds where
  low : Int
  high : Int
deriving DecidableEq, Repr

namespace RowBounds

def ofBuffers (buffers : List LineBuffer) : RowBounds :=
  buffers.foldl (fun r b => ⟨min r.low b.topRow, max r.high b.bottomRow⟩) ⟨0, 0⟩

/-- Halo rows above the owned rows, per pass. -/
def topHalo (r : RowBounds) : Nat := (-r.low).toNat

/-- Halo rows below the owned rows, per pass. -/
def bottomHalo (r : RowBounds) : Nat := r.high.toNat

end RowBounds

end GridSweep
