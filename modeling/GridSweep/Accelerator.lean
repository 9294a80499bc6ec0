import GridSweep.Error
import GridSweep.Json.Reader

/-!
# The target accelerator

Settings of the target: how many elements a loop step produces, how wide a memory word is, how many
stages are chained in a kernel, and how deep the channels between them are. Elements have 32 bits.

Settings are read from JSON. Missing ones take their defaults, unknown ones are ignored, and a
known one may not be given twice. A list gives them by position.
-/

namespace GridSweep

structure Accelerator where
  /-- Output elements per loop step. -/
  unroll : Nat
  /-- Width of a memory word in bits. -/
  wordBits : Nat
  /-- Stages chained inside a kernel call. -/
  stages : Nat
  /-- Depth of the channels between stages and between partitions, in words. -/
  channelDepth : Nat
deriving DecidableEq, Repr

namespace Accelerator

def create (unroll wordBits stages : Nat) : Accelerator := ⟨unroll, wordBits, stages, 64⟩

/-- Words of 512 bits with sixteen lanes, and a single stage. -/
def standard : Accelerator := create 16 512 1

/-- Elements in a word. -/
def lanes (a : Accelerator) : Nat := a.wordBits / 32

def validate (a : Accelerator) : Except Error Unit :=
  if a.wordBits = 0 ∨ a.wordBits % 32 ≠ 0 then .error (.config (.wordWidth a.wordBits))
  else if a.unroll ≠ a.lanes then .error (.config (.unrollMismatch a.unroll a.lanes a.wordBits))
  else if a.stages = 0 then .error (.config .zeroStages)
  else if a.channelDepth = 0 then .error (.config .zeroDepth)
  else .ok ()

/-! ### JSON -/

/-- The names of the settings in their order. -/
def fieldNames : List String := ["unroll_factor", "word_bits", "stage_count", "channel_depth"]

def toFields (a : Accelerator) : List Nat := [a.unroll, a.wordBits, a.stages, a.channelDepth]

/-- The settings from the values that are given; each has to be a 64-bit natural number. -/
def ofValues? (values : List (Option Json)) : Option Accelerator := do
  let pick (i : Nat) (standard : Nat) : Option Nat :=
    match values.getD i none with
    | none => some standard
    | some v => v.natBelow? (1 <<< 64)
  return ⟨← pick 0 standard.unroll, ← pick 1 standard.wordBits, ← pick 2 standard.stages,
    ← pick 3 standard.channelDepth⟩

/-- No known setting is given twice. -/
def hasNoRepeats (fields : List (String × Json)) : Bool :=
  fieldNames.all fun name => (fields.filter (·.1 == name)).length ≤ 1

def ofJson? (j : Json) : Option Accelerator :=
  match j with
  | .object fields =>
    if hasNoRepeats fields then ofValues? (fieldNames.map j.field?) else none
  | .array items => if items.length ≤ 4 then ofValues? (items.map some) else none
  | _ => none

/-- Reads and validates settings. -/
def ofText (text : String) : Except Error Accelerator := do
  match (Json.parse? text).bind ofJson? with
  | none => .error (.config .unreadable)
  | some a =>
    a.validate
    return a

def toJson (a : Accelerator) : Json :=
  .object (fieldNames.zip (a.toFields.map .nat))

end Accelerator

end GridSweep
