import GridSweep.Json.Basic

/-!
# Reading JSON

A text holds one value with blanks around it.

Fractional numbers are scaled from at most 64 bits of their digits: the digits that fit become a
natural number, further ones are dropped, and the number is multiplied or divided by a power of ten.
For up to fifteen digits and small exponents this is the nearest value; beyond that the two
roundings may miss it.
-/

namespace GridSweep.Json

/-! ### Numbers -/

def digitValue (c : Char) : Nat := c.toNat - '0'.toNat

/-- Appends digits to `n` as long as the result stays below `limit`; also counts them. -/
def appendDigits (limit : Nat) (n : Nat) : List Char → Nat × Nat
  | [] => (n, 0)
  | c :: cs =>
    let m := 10 * n + digitValue c
    if m < limit then
      let (v, k) := appendDigits limit m cs
      (v, k + 1)
    else (n, 0)

/-- `f` scaled by a power of ten. Exponents beyond the powers of ten that binary64 holds are reached
in steps, at most `fuel` of them; `none` is a result out of range. -/
def scaleByTen : Nat → Float → Int → Option Float
  | 0, _, _ => some 0.0
  | fuel + 1, f, e =>
    if e.natAbs ≤ 308 then
      let power := (Binary64.ofDecimal 1 e.natAbs).toFloat
      if 0 ≤ e then
        let g := f * power
        if (Binary64.ofFloat g).isInfinite then none else some g
      else some (f / power)
    else if (Binary64.ofFloat f).isZero then some f
    else if 0 ≤ e then none
    else scaleByTen fuel (f / (Binary64.ofDecimal 1 308).toFloat) (e + 308)

/-- The parts of a number as it is written. -/
structure NumberText where
  negative : Bool
  whole : List Char
  fraction : List Char
  /-- Sign and digits of the exponent. -/
  exponent : Option (Bool × List Char)

namespace NumberText

/-- Written without fraction and exponent. -/
def isWhole (t : NumberText) : Bool := t.fraction.isEmpty && t.exponent.isNone

def signed (t : NumberText) (v : Binary64) : Json := .float (if t.negative then v.neg else v)

/-- The exponent, or `none` if it is beyond 32 bits. -/
def exponentValue? (t : NumberText) : Option Int :=
  match t.exponent with
  | none => some 0
  | some (negative, ds) =>
    let (n, used) := appendDigits (1 <<< 31) 0 ds
    if used < ds.length then none else some (if negative then -(n : Int) else n)

/-- The value as binary64. -/
def floatValue (t : NumberText) : Json :=
  let (n, used) := appendDigits (1 <<< 64) 0 t.whole
  let (m, usedFraction) := appendDigits (1 <<< 64) n t.fraction
  let start : Int := (t.whole.length - used : Nat) - (usedFraction : Int)
  match t.exponentValue?, t.exponent with
  | some e, _ =>
    match scaleByTen 10 (Binary64.ofNat m).toFloat (start + e) with
    | some f => t.signed (.ofFloat f)
    | none => .overflow
  | none, some (false, _) => if m = 0 then t.signed ⟨0⟩ else .overflow
  | none, _ => t.signed ⟨0⟩

/-- A whole number is an integer if it fits 64 bits; negative zero is no integer. -/
def value (t : NumberText) : Json :=
  let n := (appendDigits (1 <<< 64) 0 t.whole).1
  let fits := (appendDigits (1 <<< 64) 0 t.whole).2 = t.whole.length
  if t.isWhole ∧ fits ∧ ¬t.negative then .int n
  else if t.isWhole ∧ fits ∧ 0 < n ∧ n ≤ 1 <<< 63 then .int (-(n : Int))
  else t.floatValue

end NumberText

/-! ### Texts -/

/-- Reading takes characters off the front of a text, or fails. -/
abbrev Read := StateT (List Char) Option

namespace Read

def isBlank (c : Char) : Bool := c == ' ' || c == '\t' || c == '\n' || c == '\r'

def skipBlanks : Read Unit := modify (·.dropWhile isBlank)

def peek : Read (Option Char) := return (← get).head?

def next : Read Char := do
  match ← get with
  | [] => failure
  | c :: cs => set cs; return c

def exactly (c : Char) : Read Unit := do
  if (← next) ≠ c then failure

def word (cs : List Char) : Read Unit := cs.forM exactly

def digits : Read (List Char) := do
  let cs ← get
  set (cs.dropWhile (·.isDigit))
  return cs.takeWhile (·.isDigit)

/-- One digit or more. -/
def someDigits : Read (List Char) := do
  let ds ← digits
  if ds.isEmpty then failure else return ds

/-- Digits of an integer: a leading zero stands alone. -/
def wholeDigits : Read (List Char) := do
  match ← someDigits with
  | '0' :: _ :: _ => failure
  | ds => return ds

/-- Consumes a character if it comes next. -/
def optional (c : Char) : Read Bool := do
  if (← peek) = some c then
    discard next
    return true
  else return false

def exponent : Read (Option (Bool × List Char)) := do
  match ← peek with
  | some 'e' | some 'E' =>
    discard next
    let negative ← optional '-'
    if !negative then discard (optional '+')
    return some (negative, ← someDigits)
  | _ => return none

def number : Read Json := do
  let negative ← optional '-'
  let whole ← wholeDigits
  let fraction ← if ← optional '.' then someDigits else pure []
  return (NumberText.mk negative whole fraction (← exponent)).value

def hexDigit? (c : Char) : Option Nat :=
  if c.isDigit then some (c.toNat - '0'.toNat)
  else if 'a' ≤ c ∧ c ≤ 'f' then some (c.toNat - 'a'.toNat + 10)
  else if 'A' ≤ c ∧ c ≤ 'F' then some (c.toNat - 'A'.toNat + 10)
  else none

/-- The value of four hexadecimal digits. -/
def hex4 : List Char → Option Nat
  | [a, b, c, d] => do
    return (((← hexDigit? a) * 16 + (← hexDigit? b)) * 16 + (← hexDigit? c)) * 16 + (← hexDigit? d)
  | _ => none

/-- An escape of one letter. -/
def simpleEscape? : Char → Option Char
  | '"' => some '"'
  | '\\' => some '\\'
  | '/' => some '/'
  | 'b' => some '\x08'
  | 'f' => some '\x0c'
  | 'n' => some '\n'
  | 'r' => some '\r'
  | 't' => some '\t'
  | _ => none

/-- The characters of a string as 16-bit units where they are escaped so. -/
inductive StringItem where
  | char (c : Char)
  | unit (u : Nat)

/-- The items up to the closing quote, at most `fuel` of them. -/
def stringItems : Nat → List Char → Option (List StringItem × List Char)
  | 0, _ => none
  | _, [] => none
  | _, '"' :: cs => some ([], cs)
  | fuel + 1, '\\' :: 'u' :: cs => do
    let u ← hex4 (cs.take 4)
    let (items, rest) ← stringItems fuel (cs.drop 4)
    return (.unit u :: items, rest)
  | fuel + 1, '\\' :: c :: cs => do
    let e ← simpleEscape? c
    let (items, rest) ← stringItems fuel cs
    return (.char e :: items, rest)
  | fuel + 1, c :: cs =>
    if c.toNat < 32 ∨ c = '\\' then none
    else do
      let (items, rest) ← stringItems fuel cs
      return (.char c :: items, rest)

/-- Joins surrogate pairs; `none` if a surrogate has no partner. -/
def joinItems : List StringItem → Option (List Char)
  | [] => some []
  | .char c :: items => (joinItems items).map (c :: ·)
  | .unit u :: items =>
    if 0xD800 ≤ u ∧ u < 0xDC00 then
      match items with
      | .unit v :: rest =>
        if 0xDC00 ≤ v ∧ v < 0xE000 then
          (joinItems rest).map (Char.ofNat (0x10000 + (u - 0xD800) * 0x400 + (v - 0xDC00)) :: ·)
        else none
      | _ => none
    else if 0xDC00 ≤ u ∧ u < 0xE000 then none
    else (joinItems items).map (Char.ofNat u :: ·)

/-- A string of fewer than `fuel` items after its opening quote; the text is missing if a surrogate
is unpaired. -/
def stringText (fuel : Nat) : Read (Option String) := do
  let cs ← get
  match stringItems fuel cs with
  | none => failure
  | some (items, rest) =>
    set rest
    return (joinItems items).map String.ofList

/-- Items with commas between them up to a closing character, the first one already read; at most
`fuel` of them. -/
def moreItems {α : Type} (item : Read α) (close : Char) : Nat → Read (List α)
  | 0 => failure
  | fuel + 1 => do
    skipBlanks
    let c ← next
    if c = close then return []
    else if c = ',' then
      skipBlanks
      let a ← item
      return a :: (← moreItems item close fuel)
    else failure

/-- A comma-separated list, possibly empty, after its opening character. -/
def items {α : Type} (fuel : Nat) (item : Read α) (close : Char) : Read (List α) := do
  skipBlanks
  if ← optional close then return []
  else
    let a ← item
    return a :: (← moreItems item close fuel)

/-- A field of an object. -/
def field (fuel : Nat) (value : Read Json) : Read (Option String × Json) := do
  exactly '"'
  let key ← stringText fuel
  skipBlanks
  exactly ':'
  skipBlanks
  return (key, ← value)

/-- An object whose keys are all proper texts. -/
def ofFields (fields : List (Option String × Json)) : Json :=
  if fields.all (·.1.isSome) then .object (fields.filterMap fun (k, v) => k.map (·, v))
  else .unpaired

/-- A value nested at most `depth` deep. Each nesting consumes a character, so a depth above the
number of characters also bounds the items and the texts. -/
def valueUpTo : Nat → Read Json
  | 0 => failure
  | depth + 1 => do
    match ← peek with
    | some 'n' => word ['n', 'u', 'l', 'l']; return .null
    | some 't' => word ['t', 'r', 'u', 'e']; return .bool true
    | some 'f' => word ['f', 'a', 'l', 's', 'e']; return .bool false
    | some '"' =>
      discard next
      match ← stringText (depth + 1) with
      | some s => return .string s
      | none => return .unpaired
    | some '[' =>
      discard next
      return .array (← items (depth + 1) (valueUpTo depth) ']')
    | some '\x7b' =>
      discard next
      return ofFields (← items (depth + 1) (field (depth + 1) (valueUpTo depth)) '\x7d')
    | _ => number

/-- A whole text: one value and blanks. -/
def document : Read Json := do
  skipBlanks
  let v ← valueUpTo ((← get).length + 1)
  skipBlanks
  if (← get).isEmpty then return v else failure

end Read

/-- The value a text holds. -/
def parse? (text : String) : Option Json := (Read.document.run text.toList).map (·.1)

end GridSweep.Json
