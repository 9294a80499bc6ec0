import GridSweep.Node.Basic
import GridSweep.Stencil.Footprint

/-!
# References and variables of a tree

What a tree reads: its array references and its scalar variables, in the order in which they are
written; and the tree in which every reference is replaced by the name of its lane value.
-/

namespace GridSweep.Node

mutual

/-- The array references, left to right; the target of an output statement counts. -/
def refs : Node → List Ref
  | .program ⟨_, _, _, _, ⟨t, bs, e⟩⟩ => t :: (refsBindings bs ++ refs e)
  | .output ⟨t, bs, e⟩ => t :: (refsBindings bs ++ refs e)
  | .binding ⟨_, e⟩ => refs e
  | .ref r => [r]
  | .chain _ xs _ => refsList xs
  | .unary _ e => refs e
  | .operand (.call _ xs) => refsList xs
  | .operand (.ref r) => [r]
  | .operand (.paren e) => refs e
  | .call _ xs => refsList xs
  | _ => []

def refsList : List Node → List Ref
  | [] => []
  | x :: xs => refs x ++ refsList xs

def refsBindings : List (Binding Node) → List Ref
  | [] => []
  | ⟨_, e⟩ :: bs => refs e ++ refsBindings bs

end

mutual

/-- The variables, left to right, with repetitions. -/
def vars : Node → List String
  | .program ⟨_, _, _, _, ⟨_, bs, e⟩⟩ => varsBindings bs ++ vars e
  | .output ⟨_, bs, e⟩ => varsBindings bs ++ vars e
  | .binding ⟨_, e⟩ => vars e
  | .chain _ xs _ => varsList xs
  | .unary _ e => vars e
  | .operand (.call _ xs) => varsList xs
  | .operand (.paren e) => vars e
  | .operand (.var x) => [x]
  | .call _ xs => varsList xs
  | .var x => [x]
  | _ => []

def varsList : List Node → List String
  | [] => []
  | x :: xs => vars x ++ varsList xs

def varsBindings : List (Binding Node) → List String
  | [] => []
  | ⟨_, e⟩ :: bs => vars e ++ varsBindings bs

end

mutual

/-- Replaces each reference of an expression by a variable. The target of an output statement is not
part of an expression and stays. An operand that was put in parentheses loses them. -/
def mapRefs (f : Ref → String) : Node → Node
  | .program ⟨i, k, n, ins, ⟨t, bs, e⟩⟩ =>
    .program ⟨i, k, n, ins, ⟨t, mapRefsBindings f bs, mapRefs f e⟩⟩
  | .output ⟨t, bs, e⟩ => .output ⟨t, mapRefsBindings f bs, mapRefs f e⟩
  | .binding ⟨x, e⟩ => .binding ⟨x, mapRefs f e⟩
  | .ref r => .var (f r)
  | .chain l xs ops => .chain l (mapRefsList f xs) ops
  | .unary ops e => .unary ops (mapRefs f e)
  | .operand (.call g xs) => .operand (.call g (mapRefsList f xs))
  | .operand (.ref r) => .operand (.var (f r))
  | .operand (.paren e) => .operand (.ofNode (mapRefs f e))
  | .call g xs => .call g (mapRefsList f xs)
  | leaf => leaf

def mapRefsList (f : Ref → String) : List Node → List Node
  | [] => []
  | x :: xs => mapRefs f x :: mapRefsList f xs

def mapRefsBindings (f : Ref → String) : List (Binding Node) → List (Binding Node)
  | [] => []
  | ⟨x, e⟩ :: bs => ⟨x, mapRefs f e⟩ :: mapRefsBindings f bs

end

/-- The footprint of a tree around an output point. -/
def footprint (n : Node) (origin : List Int) : Except Error Footprint :=
  Footprint.ofRefs origin n.refs

/-- The name of the lane value a reference stands for. -/
def tapOf (origin : List Int) (r : Ref) : String :=
  Offset.tapName r.name (List.zipWith (· - ·) r.idx origin)

/-- The tree over lane values. The first reference of the wrong arity is the error. -/
def renameRefs (n : Node) (origin : List Int) : Except Error Node := do
  for r in n.refs do
    discard (Offset.relative r.idx origin)
  return n.mapRefs (tapOf origin)

/-- The footprint of a whole output statement around its target. -/
def outputFootprint (o : Output Node) : Except Error Footprint :=
  o.expressions.foldlM (fun f e => return f.union (← e.footprint o.target.idx)) []

/-- The variables of a tree in order of first appearance. -/
def distinctVars (n : Node) : List String :=
  n.vars.foldl (fun seen x => if x ∈ seen then seen else seen ++ [x]) []

end GridSweep.Node
