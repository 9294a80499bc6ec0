/-!
# Command-line options

Options have a short and a long form. Settings take a value: `-f x`, `-fx`, `-f=x`, `--file x` or
`--file=x`; switches take none, and their short forms can be run together: `-jv`. Nothing may be
given twice, there are no other arguments, and a value that stands alone may not look like an
option.
-/

namespace GridSweep.Command

/-- What is produced from a compiled program. -/
inductive Emit where
  | summary
  | header
  | kernel
deriving DecidableEq, Repr

def Emit.ofName? : String → Option Emit
  | "summary" => some .summary
  | "header" => some .header
  | "kernel" => some .kernel
  | _ => none

/-- An option without a value. -/
inductive Switch where
  | json
  | verbose
  | help
  | version
deriving DecidableEq, Repr

/-- An option with a value. -/
inductive Setting where
  | file
  | config
  | unroll
  | wordBits
  | stages
  | emit
  | outDir
deriving DecidableEq, Repr

def Switch.ofShort? : Char → Option Switch
  | 'j' => some .json
  | 'v' => some .verbose
  | 'h' => some .help
  | 'V' => some .version
  | _ => none

def Switch.ofLong? : String → Option Switch
  | "json" => some .json
  | "verbose" => some .verbose
  | "help" => some .help
  | "version" => some .version
  | _ => none

def Setting.ofShort? : Char → Option Setting
  | 'f' => some .file
  | 'c' => some .config
  | 'u' => some .unroll
  | 'w' => some .wordBits
  | 's' => some .stages
  | 'e' => some .emit
  | 'o' => some .outDir
  | _ => none

def Setting.ofLong? : String → Option Setting
  | "file" => some .file
  | "config" => some .config
  | "unroll" => some .unroll
  | "word-bits" => some .wordBits
  | "stages" => some .stages
  | "emit" => some .emit
  | "out-dir" => some .outDir
  | _ => none

structure Options where
  file : Option String
  config : Option String
  unroll : Option Nat
  wordBits : Option Nat
  stages : Option Nat
  emit : Option Emit
  outDir : Option String
  json : Bool
  verbose : Bool
deriving DecidableEq, Repr

/-- What the arguments ask for. -/
inductive Request where
  | compile (o : Options)
  | help
  | version
  | misuse
deriving DecidableEq, Repr

/-! ### Values -/

/-- Decimal digits, with a plus sign or not, below 2 ^ 64. -/
def number? (text : String) : Option Nat :=
  let digits : List Char :=
    match text.toList with
    | '+' :: ds => ds
    | ds => ds
  let value := digits.foldl (fun n d => 10 * n + (d.toNat - '0'.toNat)) 0
  if digits ≠ [] ∧ digits.all (·.isDigit) ∧ value < 1 <<< 64 then some value else none

def path? (text : String) : Option String := if text = "" then none else some text

namespace Options

/-- Nothing is given. -/
def empty : Options := ⟨none, none, none, none, none, none, none, false, false⟩

/-- Gives a value to a field that has none yet. -/
def fresh {α : Type} (field value : Option α) : Option (Option α) :=
  match field, value with
  | none, some v => some (some v)
  | _, _ => none

/-- Gives a value to a setting; fails if it has one, or if the value is no good. -/
def set (o : Options) (s : Setting) (value : String) : Option Options :=
  match s with
  | .file => (fresh o.file (path? value)).map fun v => { o with file := v }
  | .config => (fresh o.config (path? value)).map fun v => { o with config := v }
  | .unroll => (fresh o.unroll (number? value)).map fun v => { o with unroll := v }
  | .wordBits => (fresh o.wordBits (number? value)).map fun v => { o with wordBits := v }
  | .stages => (fresh o.stages (number? value)).map fun v => { o with stages := v }
  | .emit => (fresh o.emit (Emit.ofName? value)).map fun v => { o with emit := v }
  | .outDir => (fresh o.outDir (path? value)).map fun v => { o with outDir := v }

/-- Turns a switch on; fails if it is on. Help and version end the reading instead. -/
def turnOn (o : Options) (s : Switch) : Except Request Options :=
  match s with
  | .json => if o.json then .error .misuse else .ok { o with json := true }
  | .verbose => if o.verbose then .error .misuse else .ok { o with verbose := true }
  | .help => .error .help
  | .version => .error .version

end Options

/-! ### Arguments -/

/-- What one argument is made of. -/
inductive Piece where
  | switch (s : Switch)
  | setting (s : Setting) (value : String)
  /-- The value is the next argument. -/
  | awaiting (s : Setting)
  | unknown
deriving DecidableEq, Repr

/-- The pieces of short options run together. -/
def shortPieces : List Char → List Piece
  | [] => []
  | c :: cs =>
    match Switch.ofShort? c, Setting.ofShort? c, cs with
    | some s, _, _ => .switch s :: shortPieces cs
    | _, some s, [] => [.awaiting s]
    | _, some s, '=' :: value => [.setting s (String.ofList value)]
    | _, some s, value => [.setting s (String.ofList value)]
    | _, _, _ => [.unknown]

/-- The piece of a long option, given behind its dashes. -/
def longPiece (body : List Char) : Piece :=
  let name := String.ofList (body.takeWhile (· ≠ '='))
  match Switch.ofLong? name, Setting.ofLong? name, body.dropWhile (· ≠ '=') with
  | some s, _, [] => .switch s
  | _, some s, [] => .awaiting s
  | _, some s, _ :: value => .setting s (String.ofList value)
  | _, _, _ => .unknown

def pieces (arg : String) : List Piece :=
  match arg.toList with
  | '-' :: '-' :: body => [longPiece body]
  | '-' :: c :: cs => shortPieces (c :: cs)
  | _ => [.unknown]

/-- An argument that can be the value of the option in front of it. -/
def standsAlone (arg : String) : Bool :=
  match arg.toList with
  | '-' :: _ :: _ => false
  | _ => true

/-- Takes in the pieces of an argument; also gives the setting that waits for its value. -/
def take (o : Options) : List Piece → Except Request (Options × Option Setting)
  | [] => .ok (o, none)
  | .switch s :: rest =>
    match o.turnOn s with
    | .ok o => take o rest
    | .error r => .error r
  | .setting s value :: rest =>
    match o.set s value with
    | some o => take o rest
    | none => .error .misuse
  | .awaiting s :: _ => .ok (o, some s)
  | .unknown :: _ => .error .misuse

/-- Reads arguments on top of options already given. Two dashes end the options, and nothing may
follow. -/
def readArgs (o : Options) : List String → Request
  | [] => .compile o
  | ["--"] => .compile o
  | arg :: rest =>
    match take o (pieces arg), rest with
    | .error r, _ => r
    | .ok (o, none), rest => readArgs o rest
    | .ok (_, some _), [] => .misuse
    | .ok (o, some s), value :: rest =>
      match if standsAlone value then o.set s value else none with
      | some o => readArgs o rest
      | none => .misuse

/-- The request of a command line. -/
def Request.ofArgs (args : List String) : Request := readArgs .empty args

end GridSweep.Command
