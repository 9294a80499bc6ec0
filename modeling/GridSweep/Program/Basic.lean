import GridSweep.Number.Binary64

/-!
# Programs

The statements of a stencil program: the header, the input grids, and one output statement with
named intermediate values in front of it. They are generic in the type of expressions, because
expressions have two forms: as they are written, and as the nodes that are transformed and
printed.
-/

namespace GridSweep

/-- An array element at absolute coordinates: `a(-1, 0)`. -/
structure Ref where
  name : String
  idx : List Int
deriving DecidableEq, Repr

/-- The leaf alternatives of an expression; a parenthesised expression is one of them. -/
inductive Operand (α : Type) where
  | call (function : String) (args : List α)
  | ref (r : Ref)
  | num (value : Binary64)
  | paren (inner : α)
  | var (name : String)
deriving DecidableEq, Repr

/-- `name = value` -/
structure Binding (α : Type) where
  name : String
  value : α
deriving DecidableEq, Repr

/-- `input name(rows, cols)` -/
structure Input where
  name : String
  size : List Nat
deriving DecidableEq, Repr

/-- `output binding* target = value` -/
structure Output (α : Type) where
  target : Ref
  bindings : List (Binding α)
  value : α
deriving DecidableEq, Repr

structure Program (α : Type) where
  /-- Number of times the stencil is applied to the whole grid. -/
  iterate : Nat
  kernelName : String
  /-- Number of horizontal bands the grid is split into. -/
  partitions : Nat
  inputs : List Input
  output : Output α
deriving DecidableEq, Repr

/-- The expressions of an output statement in evaluation order: the bindings, then the value. -/
def Output.expressions {α : Type} (o : Output α) : List α := o.bindings.map (·.value) ++ [o.value]

namespace Surface

/-- Expressions as a front end hands them over. A binary node carries the name of the grammar rule
it was reduced by and its operators as they are spelled; nothing is checked before lowering, so the
names and the number of operators are arbitrary. -/
inductive Expr where
  /-- One precedence level: operands with operators between them. -/
  | binary (rule : String) (operands : List Expr) (operators : List String)
  /-- Prefix operators, outermost first. -/
  | unary (operators : List String) (operand : Expr)
  | operand (o : Operand Expr)
deriving Repr

abbrev Program := GridSweep.Program Expr

end Surface

end GridSweep
