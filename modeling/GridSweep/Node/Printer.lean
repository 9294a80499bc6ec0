import GridSweep.Node.Basic
import GridSweep.Number.Notation
import GridSweep.Text.Listing

/-!
# Printing nodes

Expressions print as C, statements in the syntax of the language. A chain prints without parentheses
of its own. Two equal signs never touch between prefix operators, because C would read them as one
operator.

A chain without operands has no text; `render?` refuses to print a tree in which one comes up.
-/

namespace GridSweep

def Ref.text (r : Ref) : String := r.name ++ "(" ++ Listing.commas (r.idx.map toString) ++ ")"

def Input.text (i : Input) : String :=
  "input " ++ i.name ++ "(" ++ Listing.commas (i.size.map toString) ++ ")"

namespace Node

/-- Whether two texts side by side would join into `--` or `++`. -/
def fuses (left right : String) : Bool :=
  match left.toList.getLast?, right.toList.head? with
  | some '-', some '-' => true
  | some '+', some '+' => true
  | _, _ => false

/-- One text after another, with a blank where they would fuse. -/
def glue (left right : String) : String :=
  if fuses left right then left ++ " " ++ right else left ++ right

def unaryText (operators : List String) (operand : String) : String :=
  glue (operators.foldl glue "") operand

/-- An operator and the operand behind it. -/
def linkText (operator operand : String) : String := " " ++ operator ++ " " ++ operand

/-- Operands in excess of the operators are left out, and operators in excess of the operands too.
-/
def chainText (operators : List String) : List String → String
  | [] => ""
  | first :: rest => first ++ String.join (List.zipWith linkText operators rest)

def callText (function : String) (args : List String) : String :=
  function ++ "(" ++ Listing.commas args ++ ")"

def bindingText (name value : String) : String := name ++ " = " ++ value

def outputText (target : Ref) (bindings : List String) (value : String) : String :=
  String.join (bindings.map (· ++ "\n")) ++ "output " ++ target.text ++ " = " ++ value

def programText (p : Program Node) (output : String) : String :=
  s!"kernel: {p.kernelName}\niterate: {p.iterate}\nkernel count: {p.partitions}\n" ++
    String.join (p.inputs.map fun i => i.text ++ "\n") ++ output

mutual

/-- The text of a node; a chain without operands gives none. -/
def text : Node → String
  | .program ⟨i, k, n, ins, ⟨t, bs, e⟩⟩ =>
    programText ⟨i, k, n, ins, ⟨t, bs, e⟩⟩ (outputText t (textBindings bs) (text e))
  | .input i => i.text
  | .output ⟨t, bs, e⟩ => outputText t (textBindings bs) (text e)
  | .binding ⟨x, e⟩ => bindingText x (text e)
  | .ref r => r.text
  | .chain _ xs ops => chainText ops (textList xs)
  | .unary ops e => unaryText ops (text e)
  | .operand (.call f xs) => callText f (textList xs)
  | .operand (.ref r) => r.text
  | .operand (.num v) => v.constant
  | .operand (.paren e) => "(" ++ text e ++ ")"
  | .operand (.var x) => x
  | .call f xs => callText f (textList xs)
  | .var x => x
  | .num v => v.constant

def textList : List Node → List String
  | [] => []
  | x :: xs => text x :: textList xs

def textBindings : List (Binding Node) → List String
  | [] => []
  | ⟨x, e⟩ :: bs => bindingText x (text e) :: textBindings bs

end

mutual

/-- No chain that would be printed is without operands. -/
def printable : Node → Bool
  | .program ⟨_, _, _, _, ⟨_, bs, e⟩⟩ => printableBindings bs && printable e
  | .output ⟨_, bs, e⟩ => printableBindings bs && printable e
  | .binding ⟨_, e⟩ => printable e
  | .chain _ xs ops => !xs.isEmpty && printableFirst (ops.length + 1) xs
  | .unary _ e => printable e
  | .operand (.call _ xs) => printableFirst xs.length xs
  | .operand (.paren e) => printable e
  | .call _ xs => printableFirst xs.length xs
  | _ => true

/-- The first `n` nodes of a list are printable. -/
def printableFirst : Nat → List Node → Bool
  | 0, _ => true
  | _, [] => true
  | n + 1, x :: xs => printable x && printableFirst n xs

def printableBindings : List (Binding Node) → Bool
  | [] => true
  | ⟨_, e⟩ :: bs => printable e && printableBindings bs

end

/-- The text of a node that can be printed. -/
def render? (n : Node) : Option String := if n.printable then some n.text else none

end Node

end GridSweep
