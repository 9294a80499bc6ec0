import GridSweep.Error
import GridSweep.Node.Basic
import GridSweep.Program.Basic

/-!
# Lowering

Lowering checks a surface tree and turns it into nodes of the same shape: rule names, the number of
operators and their spelling, function names and the presence of arguments. A node is checked before
its children, and children from left to right.
-/

namespace GridSweep.Surface

/-- The level of a rule, provided the operators fit the operands. -/
def checkChain (rule : String) (operands : Nat) (operators : List String) : Except Error Level :=
  match Level.ofRule? rule with
  | none => throw (.malformedOperators rule .unknownRule)
  | some level =>
    if operands = 0 ∨ operators.length + 1 ≠ operands then
      throw (.malformedOperators rule (.count operands operators.length))
    else
      match operators.find? (!level.accepts ·) with
      | some bad => throw (.malformedOperators rule (.rejected bad))
      | none => return level

def checkUnary (operators : List String) : Except Error Unit :=
  match operators.find? (!Operator.isPrefixSpelling ·) with
  | some bad => throw (.malformedOperators "Unary" (.notPrefix bad))
  | none => return ()

def checkCall (function : String) (args : Nat) : Except Error Unit :=
  if function ∉ functionNames then throw (.unknownFunction function)
  else if args = 0 then throw (.parse (.missingArgument function))
  else return ()

mutual

def Expr.lower : Expr → Except Error Node
  | .binary rule xs ops => do
    let level ← checkChain rule xs.length ops
    return .chain level (← lowerList xs) ops
  | .unary ops e => do
    checkUnary ops
    return .unary ops (← e.lower)
  | .operand (.call f xs) => do
    checkCall f xs.length
    return .operand (.call f (← lowerList xs))
  | .operand (.ref r) => return .operand (.ref r)
  | .operand (.num v) => return .operand (.num v)
  | .operand (.paren e) => return .operand (.paren (← e.lower))
  | .operand (.var x) => return .operand (.var x)

def lowerList : List Expr → Except Error (List Node)
  | [] => return []
  | x :: xs => do
    let y ← x.lower
    return y :: (← lowerList xs)

end

def lowerBinding (b : Binding Expr) : Except Error (Binding Node) :=
  return ⟨b.name, ← b.value.lower⟩

/-- Bindings first, then the value. -/
def lowerOutput (o : Output Expr) : Except Error (Output Node) := do
  let bindings ← o.bindings.mapM lowerBinding
  return ⟨o.target, bindings, ← o.value.lower⟩

/-- Lower a whole program. -/
def Program.lower (p : Program) : Except Error (GridSweep.Program Node) :=
  return ⟨p.iterate, p.kernelName, p.partitions, p.inputs, ← lowerOutput p.output⟩

end GridSweep.Surface
