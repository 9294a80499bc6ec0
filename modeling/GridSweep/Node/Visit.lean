import GridSweep.Node.Basic

/-!
# Visiting

A visitor walks a tree from the root and may change it on the way. It first enters a node: either
it gives a replacement, which is taken as it is, or it goes on with the node, edited or not. Then
each child that the visitor left as it was is visited in turn and its result put in its place;
children that were edited stay. The hooks run around the children.

A result that does not fit its place, such as a number where a binding belongs, is dropped.
-/

namespace GridSweep

inductive Entry where
  /-- Go on with this copy of the node. -/
  | descend (copy : Node)
  /-- Put this in place of the node and look no further. -/
  | replace (n : Node)

structure Visitor (m : Type → Type) where
  enter : Node → m Entry
  before : Node → m Node
  after : Node → m Node

namespace Visitor

variable {m : Type → Type} [Monad m]

/-- A visitor without hooks. -/
def ofEnter (enter : Node → m Entry) : Visitor m := ⟨enter, pure, pure⟩

/-- Enters a node; on the way down, `children` visits the children of the copy between the hooks. -/
def around (v : Visitor m) (n : Node) (children : Node → m Node) : m Node := do
  match ← v.enter n with
  | .replace r => return r
  | .descend copy => v.after (← children (← v.before copy))

/-- A child in its place: visited if it is still what it was, and kept if the result does not fit.
-/
def slot {β : Type} [DecidableEq β] (child copy : β) (visited : m Node)
    (fit? : Node → Option β) : m β := do
  if copy = child then return (fit? (← visited)).getD copy else return copy

def asOutput? : Node → Option (Output Node)
  | .output o => some o
  | _ => none

def asBinding? : Node → Option (Binding Node)
  | .binding b => some b
  | _ => none

def asInput? : Node → Option Input
  | .input i => some i
  | _ => none

def asRef? : Node → Option Ref
  | .ref r => some r
  | .operand (.ref r) => some r
  | _ => none

/-- Inputs have no children; they are visited in pairs with those of the copy. -/
def inputs (v : Visitor m) : List Input → List Input → m (List Input)
  | i :: is, c :: cs => do
    let d ← slot i c (v.around (.input i) pure) asInput?
    return d :: (← inputs v is cs)
  | _, cs => return cs

/-- The arguments of a copy that is still a call. -/
def onCall (args : List Node → m (List Node)) : Node → m Node
  | .call f xs => return .call f (← args xs)
  | other => return other

/-- The parts of a copy that is still an output statement. -/
def onOutput (target : Ref → m Ref) (bindings : List (Binding Node) → m (List (Binding Node)))
    (value : Node → m Node) : Node → m Node
  | .output o => do
    let t ← target o.target
    let bs ← bindings o.bindings
    return .output ⟨t, bs, ← value o.value⟩
  | other => return other

/-- The value of a copy that is still a binding. -/
def onBinding (value : Node → m Node) : Node → m Node
  | .binding b => return .binding ⟨b.name, ← value b.value⟩
  | other => return other

/-- The parts of a copy that is still a program. -/
def onProgram (ins : List Input → m (List Input)) (out : Output Node → m (Output Node)) :
    Node → m Node
  | .program p => do
    let is ← ins p.inputs
    return .program { p with inputs := is, output := ← out p.output }
  | other => return other

def onChain (operands : List Node → m (List Node)) : Node → m Node
  | .chain l xs ops => return .chain l (← operands xs) ops
  | other => return other

def onUnary (operand : Node → m Node) : Node → m Node
  | .unary ops e => return .unary ops (← operand e)
  | other => return other

def onOperand (inner : Operand Node → m (Operand Node)) : Node → m Node
  | .operand o => return .operand (← inner o)
  | other => return other

/-- A reference as a child of an output statement. -/
def target (v : Visitor m) (t copy : Ref) : m Ref := slot t copy (v.around (.ref t) pure) asRef?

mutual

/-- Visits a tree. -/
def visit (v : Visitor m) : Node → m Node
  | .program ⟨i, k, n, ins, o⟩ =>
    v.around (.program ⟨i, k, n, ins, o⟩)
      (onProgram (inputs v ins) fun copy => slot o copy (visitOutput v o) asOutput?)
  | .input i => v.around (.input i) pure
  | .output o => visitOutput v o
  | .binding b => visitBinding v b
  | .ref r => v.around (.ref r) pure
  | .chain l xs ops => v.around (.chain l xs ops) (onChain (visitList v xs))
  | .unary ops e =>
    v.around (.unary ops e) (onUnary fun copy => slot e copy (visit v e) some)
  | .operand o =>
    v.around (.operand o)
      (onOperand fun copy => slot o copy (visitOperand v o) fun n => some (.ofNode n))
  | .call f xs => v.around (.call f xs) (onCall (visitList v xs))
  | .var x => v.around (.var x) pure
  | .num x => v.around (.num x) pure

/-- Visits the node an operand stands for. -/
def visitOperand (v : Visitor m) : Operand Node → m Node
  | .call f xs => v.around (.call f xs) (onCall (visitList v xs))
  | .ref r => v.around (.ref r) pure
  | .num x => v.around (.num x) pure
  | .paren e => visit v e
  | .var x => v.around (.var x) pure

def visitOutput (v : Visitor m) : Output Node → m Node
  | ⟨t, bs, e⟩ =>
    v.around (.output ⟨t, bs, e⟩)
      (onOutput (v.target t) (visitBindings v bs) fun copy => slot e copy (visit v e) some)

def visitBinding (v : Visitor m) : Binding Node → m Node
  | ⟨x, e⟩ =>
    v.around (.binding ⟨x, e⟩) (onBinding fun copy => slot e copy (visit v e) some)

/-- Visits nodes in pairs with those of the copy. -/
def visitList (v : Visitor m) : List Node → List Node → m (List Node)
  | [], cs => return cs
  | _ :: _, [] => return []
  | x :: xs, c :: cs => do
    let d ← slot x c (visit v x) some
    return d :: (← visitList v xs cs)

def visitBindings (v : Visitor m) : List (Binding Node) → List (Binding Node) →
    m (List (Binding Node))
  | [], cs => return cs
  | _ :: _, [] => return []
  | b :: bs, c :: cs => do
    let d ← slot b c (visitBinding v b) asBinding?
    return d :: (← visitBindings v bs cs)

end

end Visitor

end GridSweep
