import GridSweep.Number.Binary64

/-!
# JSON values

Programs, accelerator settings and compiled kernels are exchanged as JSON. Objects keep the order of
their fields. Numbers written without a fraction or an exponent are integers as long as they fit 64
bits; all others are binary64 values.
-/

namespace GridSweep

inductive Json where
  | null
  | bool (b : Bool)
  | int (n : Int)
  | float (v : Binary64)
  /-- A number beyond the range of binary64. -/
  | overflow
  | string (s : String)
  /-- A string, or an object with a key, that has an unpaired surrogate in it. -/
  | unpaired
  | array (items : List Json)
  | object (fields : List (String × Json))
deriving Repr

namespace Json

def nat (n : Nat) : Json := .int n

def strings (ss : List String) : Json := .array (ss.map .string)

def nats (ns : List Nat) : Json := .array (ns.map .nat)

def ints (ns : List Int) : Json := .array (ns.map .int)

def optional {α : Type} (f : α → Json) : Option α → Json
  | none => .null
  | some a => f a

/-- The field of an object; of several with one name the last. -/
def field? (name : String) : Json → Option Json
  | .object fields => (fields.reverse.find? (·.1 == name)).map (·.2)
  | _ => none

/-- An integer from 0 below `limit`. -/
def natBelow? (limit : Nat) : Json → Option Nat
  | .int n => if 0 ≤ n ∧ n < limit then some n.toNat else none
  | _ => none

/-- A 64-bit signed integer. -/
def int64? : Json → Option Int
  | .int n => if -0x8000000000000000 ≤ n ∧ n < 0x8000000000000000 then some n else none
  | _ => none

def string? : Json → Option String
  | .string s => some s
  | _ => none

def array? : Json → Option (List Json)
  | .array items => some items
  | _ => none

/-- Any number, integers included. -/
def number? : Json → Option Binary64
  | .int n => some (if n < 0 then (Binary64.ofNat n.natAbs).neg else .ofNat n.natAbs)
  | .float v => some v
  | _ => none

end Json

end GridSweep
