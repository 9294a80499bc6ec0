import GridSweep.Node.Basic

/-!
# Simplification

`simplify` works from the leaves up, so every rule sees children that are already simple:

- a chain of one operand and a unary node without operators give way to their operand;
- parentheses around a leaf are dropped;
- a chain of the same level in parentheses is spliced in where regrouping keeps the meaning:
  `a - (b + c)` becomes `a - b - c`;
- literals at the front of a sum or a product are folded, and so are signs of a literal;
- a pair of minus signs cancels, and plus signs are dropped.

The rules need an operator in front of every operand but the first; `simplify?` refuses a tree in
which one is missing.
-/

namespace GridSweep.Node

/-- What stands in place of a collapsed chain: a leaf becomes an operand again. -/
def asOperand (n : Node) : Node :=
  match n with
  | .chain .. | .unary .. | .operand _ => n
  | leaf => .operand (.ofNode leaf)

/-- The operands and operators of a chain of this level, with or without parentheses. -/
def nestedChain? (level : Level) : Node → Option (List Node × List String)
  | .chain l xs ops => if l = level then some (xs, ops) else none
  | .operand (.paren (.chain l xs ops)) => if l = level then some (xs, ops) else none
  | _ => none

/-- Taking a sum out of parentheses behind a minus turns its signs around. -/
def flipSign (operator : String) : String := if operator = "+" then "-" else "+"

/-- The operators of an inner chain when it is spliced in behind the operator `before`; `none` where
that would change the meaning. At the front of a chain it never does. -/
def spliced? (level : Level) (before : Option String) (inner : List String) :
    Option (List String) :=
  match before with
  | none => some inner
  | some op =>
    if level.isAssociative then some inner
    else if level = .sum ∧ op = "+" then some inner
    else if level = .sum ∧ op = "-" then some (inner.map flipSign)
    else if level = .product ∧ op = "*" ∧ inner.all (· == "*") then some inner
    else none

/-- What an operand contributes to a flattened chain: operands and operators. -/
def segment (level : Level) (before : Option String) (n : Node) : List Node × List String :=
  match nestedChain? level n with
  | some (xs, inner) =>
    match spliced? level before inner with
    | some ops => (xs, before.toList ++ ops)
    | none => ([n], before.toList)
  | none => ([n], before.toList)

/-- The segments after the first operand. -/
def flattenRest (level : Level) : List Node → List String → List Node × List String
  | x :: xs, op :: ops =>
    let (ys, os) := segment level (some op) x
    let (zs, ps) := flattenRest level xs ops
    (ys ++ zs, os ++ ps)
  | _, _ => ([], [])

/-- Splices nested chains of the same level into a chain. -/
def flatten (level : Level) : List Node → List String → List Node × List String
  | [], _ => ([], [])
  | x :: xs, ops =>
    let (ys, os) := segment level none x
    let (zs, ps) := flattenRest level xs ops
    (ys ++ zs, os ++ ps)

/-- An operation on literals; a division by zero stays as it is. -/
def applyOperator? (level : Level) (operator : String) (x y : Binary64) : Option Binary64 :=
  match level, operator with
  | .sum, "+" => some (x.add y)
  | .sum, "-" => some (x.sub y)
  | .product, "*" => some (x.mul y)
  | .product, "/" => if y.isZero then none else some (x.div y)
  | _, _ => none

/-- The literal that replaces two operands at the front. -/
def foldedPair? (level : Level) (operator : String) (a b : Node) : Option Node :=
  match a.number?, b.number? with
  | some x, some y => (applyOperator? level operator x y).map fun v => .operand (.num v)
  | _, _ => none

/-- Folds literals into the first operand as long as the next one is a literal too. -/
def foldFront (level : Level) (first : Node) : List Node → List String → List Node × List String
  | x :: xs, op :: ops =>
    match foldedPair? level op first x with
    | some v => foldFront level v xs ops
    | none => (first :: x :: xs, op :: ops)
  | xs, ops => (first :: xs, ops)

def foldLiterals (level : Level) : List Node → List String → List Node × List String
  | [], ops => ([], ops)
  | x :: xs, ops => foldFront level x xs ops

/-- A chain of simple operands. -/
def simplifyChain (level : Level) (operands : List Node) (operators : List String) : Node :=
  let (xs, ops) := flatten level operands operators
  match foldLiterals level xs ops with
  | ([x], _) => asOperand x
  | (ys, os) => .chain level ys os

/-- Removes what it can from prefix operators, given innermost first. -/
def reduceSigns : List String → Node → List String × Node
  | [], e => ([], e)
  | op :: ops, e =>
    match op, ops with
    | "-", "-" :: rest => reduceSigns rest e
    | "+", rest => reduceSigns rest e
    | "-", rest =>
      match e.number? with
      | some v => reduceSigns rest (.operand (.num v.neg))
      | none => ("-" :: rest, e)
    | op, rest => (op :: rest, e)

/-- A unary node with a simple operand. -/
def simplifyUnary (operators : List String) (operand : Node) : Node :=
  match reduceSigns operators.reverse operand with
  | ([], e) => asOperand e
  | (ops, e) => .unary ops.reverse e

mutual

def simplify : Node → Node
  | .program ⟨i, k, n, ins, ⟨t, bs, e⟩⟩ =>
    .program ⟨i, k, n, ins, ⟨t, simplifyBindings bs, simplify e⟩⟩
  | .output ⟨t, bs, e⟩ => .output ⟨t, simplifyBindings bs, simplify e⟩
  | .binding ⟨x, e⟩ => .binding ⟨x, simplify e⟩
  | .chain l xs ops => simplifyChain l (simplifyList xs) ops
  | .unary ops e => simplifyUnary ops (simplify e)
  | .operand (.call f xs) => .operand (.call f (simplifyList xs))
  | .operand (.paren e) => .operand (.ofNode (simplify e))
  | .call f xs => .call f (simplifyList xs)
  | leaf => leaf

def simplifyList : List Node → List Node
  | [] => []
  | x :: xs => simplify x :: simplifyList xs

def simplifyBindings : List (Binding Node) → List (Binding Node)
  | [] => []
  | ⟨x, e⟩ :: bs => ⟨x, simplify e⟩ :: simplifyBindings bs

end

mutual

/-- Every operand of a chain but the first has an operator in front of it. -/
def hasOperators : Node → Bool
  | .program ⟨_, _, _, _, ⟨_, bs, e⟩⟩ => hasOperatorsBindings bs && hasOperators e
  | .output ⟨_, bs, e⟩ => hasOperatorsBindings bs && hasOperators e
  | .binding ⟨_, e⟩ => hasOperators e
  | .chain _ xs ops => decide (xs.length ≤ ops.length + 1) && hasOperatorsList xs
  | .unary _ e => hasOperators e
  | .operand (.call _ xs) => hasOperatorsList xs
  | .operand (.paren e) => hasOperators e
  | .call _ xs => hasOperatorsList xs
  | _ => true

def hasOperatorsList : List Node → Bool
  | [] => true
  | x :: xs => hasOperators x && hasOperatorsList xs

def hasOperatorsBindings : List (Binding Node) → Bool
  | [] => true
  | ⟨_, e⟩ :: bs => hasOperators e && hasOperatorsBindings bs

end

/-- The simplified tree, if no operator is missing. -/
def simplify? (n : Node) : Option Node := if n.hasOperators then some n.simplify else none

/-- Simplifies the expressions of an output statement. -/
def simplifyOutput (o : Output Node) : Output Node :=
  { o with
    bindings := o.bindings.map fun b => ⟨b.name, b.value.simplify⟩
    value := o.value.simplify }

end GridSweep.Node
