import GridSweep.Error
import GridSweep.Ordered
import GridSweep.Program.Basic

/-!
# Footprints

A reference stands at absolute coordinates; its offset is the difference to the output point. The
footprint of a stencil is the set of offsets each input is read at. For a grid of rows and
columns, an input's offsets are grouped by row.
-/

namespace GridSweep

/-- Coordinates relative to the output point. -/
abbrev Offset := List Int

namespace Offset

def row (o : Offset) : Int := o.headD 0

def col (o : Offset) : Int := o.getD 1 0

def isOrigin (o : Offset) : Bool := o.all (· == 0)

/-- `idx - origin`, coordinate by coordinate. -/
def relative (idx origin : List Int) : Except Error Offset :=
  if idx.length = origin.length then .ok (List.zipWith (· - ·) idx origin)
  else .error (.dimensionMismatch origin.length idx.length)

/-- A coordinate inside an identifier: `-1` becomes `m1`. -/
def coordinateName (c : Int) : String :=
  if c < 0 then "m" ++ toString c.natAbs else toString c.natAbs

/-- The name of the lane value of a variable at an offset: `a` at `(0, -1)` is `a_0_m1`. -/
def tapName (var : String) (o : Offset) : String :=
  var ++ "_" ++ "_".intercalate (o.map coordinateName)

end Offset

/-- The offsets each variable is read at, in order of names and offsets. -/
abbrev Footprint := List (String × List Offset)

namespace Footprint

def insert (f : Footprint) (name : String) (o : Offset) : Footprint :=
  Ordered.alter name (fun os => Ordered.insert o (os.getD [])) f

def union (f g : Footprint) : Footprint :=
  g.foldl (fun f (name, os) => os.foldl (fun f o => f.insert name o) f) f

def get? (f : Footprint) (name : String) : Option (List Offset) := Ordered.get? name f

/-- The footprint of a list of references. The first one of the wrong arity is the error. -/
def ofRefs (origin : List Int) (refs : List Ref) : Except Error Footprint :=
  refs.foldlM (fun f r => return f.insert r.name (← Offset.relative r.idx origin)) []

end Footprint

/-- Column offsets per row offset, both ascending. -/
abbrev RowRefs := List (Int × List Int)

namespace RowRefs

def insert (rows : RowRefs) (row col : Int) : RowRefs :=
  Ordered.alter row (fun cols => Ordered.insert col (cols.getD [])) rows

/-- Two-dimensional offsets by rows. -/
def ofOffsets (offsets : List Offset) : Except Error RowRefs :=
  offsets.foldlM (fun rows o =>
    if o.length = 2 then .ok (rows.insert o.row o.col)
    else .error (.unsupportedDimensions o.length)) []

end RowRefs

end GridSweep
