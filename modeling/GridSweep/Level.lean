import GridSweep.Token

/-!
# Precedence levels

Binary operators stand on nine levels, loosest first. Each level has a grammar rule name, under
which expressions are exchanged with other front ends, and the operators it accepts.
-/

namespace GridSweep

inductive Level where
  | or
  | and
  | bitOr
  | bitXor
  | bitAnd
  | equality
  | comparison
  | sum
  | product
deriving DecidableEq, Repr

namespace Level

/-- The levels from the loosest to the tightest. -/
def all : List Level := [or, and, bitOr, bitXor, bitAnd, equality, comparison, sum, product]

/-- The name of the level's grammar rule. -/
def rule : Level → String
  | or => "Expr"
  | and => "LogicAnd"
  | bitOr => "BinaryOr"
  | bitXor => "Xor"
  | bitAnd => "BinaryAnd"
  | equality => "EqCmp"
  | comparison => "LtCmp"
  | sum => "AddSub"
  | product => "MulDiv"

def ofRule? (name : String) : Option Level := all.find? (·.rule == name)

@[simp] theorem ofRule?_rule (l : Level) : ofRule? l.rule = some l := by
  cases l <;> decide

/-- The operators that the parser reads on a level. -/
def operators : Level → List Operator
  | or => [.orOr]
  | and => [.andAnd]
  | bitOr => [.pipe]
  | bitXor => [.caret]
  | bitAnd => [.amp]
  | equality => [.eqEq, .notEq]
  | comparison => [.le, .ge, .lt, .gt]
  | sum => [.plus, .minus]
  | product => [.star, .slash, .percent]

/-- The spellings that lowering accepts on a level. -/
def spellings : Level → List String
  | or => ["||"]
  | and => ["&&"]
  | bitOr => ["|"]
  | bitXor => ["^"]
  | bitAnd => ["&"]
  | equality => ["==", "!="]
  | comparison => ["<=", ">=", "<", ">"]
  | sum => ["+", "-"]
  | product => ["*", "/", "%"]

/-- What can be written on a level is what lowering accepts there. -/
theorem spellings_eq (l : Level) : l.spellings = l.operators.map (·.text) := by
  cases l <;> rfl

/-- Whether an operator of this spelling belongs to the level. -/
def accepts (l : Level) (spelling : String) : Bool := l.spellings.contains spelling

/-- Levels with one operator whose chains may be regrouped freely. -/
def isAssociative : Level → Bool
  | or | and | bitOr | bitXor | bitAnd => true
  | equality | comparison | sum | product => false

end Level

namespace Operator

/-- The operators that may stand in front of an operand. -/
def prefixes : List Operator := [plus, minus, tilde, bang]

/-- Whether an operator of this spelling may stand in front of an operand. -/
def isPrefixSpelling (spelling : String) : Bool := prefixes.any (·.text == spelling)

end Operator

/-- The functions an expression may call. -/
def functionNames : List String := ["fabs", "abs"]

end GridSweep
