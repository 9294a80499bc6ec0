import GridSweep.Level
import GridSweep.Program.Basic

/-!
# Nodes

The tree that is simplified, searched and printed. Statements are nodes too, so that one traversal
serves whole programs and single expressions. A leaf of an expression stands in an `operand`; the
bare leaves `call`, `ref`, `num` and `var` are what a traversal sees when it looks inside one.

Equality of nodes is structural and decidable.
-/

namespace GridSweep

inductive Node where
  | program (p : Program Node)
  | input (i : Input)
  | output (o : Output Node)
  | binding (b : Binding Node)
  | ref (r : Ref)
  /-- Operands of one level with operators between them, grouped to the left. -/
  | chain (level : Level) (operands : List Node) (operators : List String)
  /-- Prefix operators, outermost first. -/
  | unary (operators : List String) (operand : Node)
  | operand (o : Operand Node)
  | call (function : String) (args : List Node)
  | var (name : String)
  | num (value : Binary64)
deriving Repr

/-- The alternative of an operand as a node of its own. -/
def Operand.toNode : Operand Node → Node
  | .call f args => .call f args
  | .ref r => .ref r
  | .num v => .num v
  | .paren e => e
  | .var name => .var name

/-- A node fitted into an operand: a leaf stands for itself, anything else gets parentheses. -/
def Operand.ofNode : Node → Operand Node
  | .call f args => .call f args
  | .ref r => .ref r
  | .num v => .num v
  | .var name => .var name
  | .operand o => o
  | other => .paren other

namespace Node

/-- The value of a literal, bare or in an operand. -/
def number? : Node → Option Binary64
  | .num v => some v
  | .operand (.num v) => some v
  | _ => none

/-! ### Equality -/

mutual

/-- Structural equality. -/
def beq : Node → Node → Bool
  | .program ⟨i, k, n, ins, ⟨t, bs, e⟩⟩, b =>
    match b with
    | .program p =>
      decide (i = p.iterate) && decide (k = p.kernelName) && decide (n = p.partitions) &&
        decide (ins = p.inputs) && decide (t = p.output.target) &&
        beqBindings bs p.output.bindings && beq e p.output.value
    | _ => false
  | .input i, b =>
    match b with
    | .input i' => decide (i = i')
    | _ => false
  | .output ⟨t, bs, e⟩, b =>
    match b with
    | .output o => decide (t = o.target) && beqBindings bs o.bindings && beq e o.value
    | _ => false
  | .binding ⟨x, e⟩, b =>
    match b with
    | .binding c => decide (x = c.name) && beq e c.value
    | _ => false
  | .ref r, b =>
    match b with
    | .ref r' => decide (r = r')
    | _ => false
  | .chain l xs ops, b =>
    match b with
    | .chain l' xs' ops' => decide (l = l') && beqList xs xs' && decide (ops = ops')
    | _ => false
  | .unary ops e, b =>
    match b with
    | .unary ops' e' => decide (ops = ops') && beq e e'
    | _ => false
  | .operand o, b =>
    match b with
    | .operand o' => beqOperand o o'
    | _ => false
  | .call f xs, b =>
    match b with
    | .call f' xs' => decide (f = f') && beqList xs xs'
    | _ => false
  | .var x, b =>
    match b with
    | .var x' => decide (x = x')
    | _ => false
  | .num v, b =>
    match b with
    | .num v' => decide (v = v')
    | _ => false
termination_by structural a => a

def beqOperand : Operand Node → Operand Node → Bool
  | .call f xs, b =>
    match b with
    | .call f' xs' => decide (f = f') && beqList xs xs'
    | _ => false
  | .ref r, b =>
    match b with
    | .ref r' => decide (r = r')
    | _ => false
  | .num v, b =>
    match b with
    | .num v' => decide (v = v')
    | _ => false
  | .paren e, b =>
    match b with
    | .paren e' => beq e e'
    | _ => false
  | .var x, b =>
    match b with
    | .var x' => decide (x = x')
    | _ => false
termination_by structural a => a

def beqList : List Node → List Node → Bool
  | [], ys => ys.isEmpty
  | x :: xs, ys =>
    match ys with
    | y :: ys => beq x y && beqList xs ys
    | [] => false
termination_by structural xs => xs

def beqBindings : List (Binding Node) → List (Binding Node) → Bool
  | [], cs => cs.isEmpty
  | ⟨x, e⟩ :: bs, cs =>
    match cs with
    | c :: cs => decide (x = c.name) && beq e c.value && beqBindings bs cs
    | [] => false
termination_by structural bs => bs

end

mutual

theorem beq_self : ∀ n : Node, beq n n = true
  | .program ⟨_, _, _, _, ⟨_, bs, e⟩⟩ => by simp [beq, beq_self e, beqBindings_self bs]
  | .input _ => by simp [beq]
  | .output ⟨_, bs, e⟩ => by simp [beq, beq_self e, beqBindings_self bs]
  | .binding ⟨_, e⟩ => by simp [beq, beq_self e]
  | .ref _ => by simp [beq]
  | .chain _ xs _ => by simp [beq, beqList_self xs]
  | .unary _ e => by simp [beq, beq_self e]
  | .operand o => by simp [beq, beqOperand_self o]
  | .call _ xs => by simp [beq, beqList_self xs]
  | .var _ => by simp [beq]
  | .num _ => by simp [beq]

theorem beqOperand_self : ∀ o : Operand Node, beqOperand o o = true
  | .call _ xs => by simp [beqOperand, beqList_self xs]
  | .ref _ => by simp [beqOperand]
  | .num _ => by simp [beqOperand]
  | .paren e => by simp [beqOperand, beq_self e]
  | .var _ => by simp [beqOperand]

theorem beqList_self : ∀ xs : List Node, beqList xs xs = true
  | [] => by simp [beqList]
  | x :: xs => by simp [beqList, beq_self x, beqList_self xs]

theorem beqBindings_self : ∀ bs : List (Binding Node), beqBindings bs bs = true
  | [] => by simp [beqBindings]
  | ⟨_, e⟩ :: bs => by simp [beqBindings, beq_self e, beqBindings_self bs]

end

mutual

theorem eq_of_beq : ∀ {a b : Node}, beq a b = true → a = b
  | .program ⟨i, k, n, ins, ⟨t, bs, e⟩⟩, b, h => by
    cases b <;> simp only [beq, Bool.false_eq_true, Bool.and_eq_true, decide_eq_true_eq] at h
    obtain ⟨⟨⟨⟨⟨⟨rfl, rfl⟩, rfl⟩, rfl⟩, rfl⟩, hbs⟩, he⟩ := h
    rw [eq_of_beq he, eq_of_beqBindings hbs]
  | .input i, b, h => by
    cases b <;> simp only [beq, Bool.false_eq_true, decide_eq_true_eq] at h
    rw [h]
  | .output ⟨t, bs, e⟩, b, h => by
    cases b <;> simp only [beq, Bool.false_eq_true, Bool.and_eq_true, decide_eq_true_eq] at h
    obtain ⟨⟨rfl, hbs⟩, he⟩ := h
    rw [eq_of_beq he, eq_of_beqBindings hbs]
  | .binding ⟨x, e⟩, b, h => by
    cases b <;> simp only [beq, Bool.false_eq_true, Bool.and_eq_true, decide_eq_true_eq] at h
    obtain ⟨rfl, he⟩ := h
    rw [eq_of_beq he]
  | .ref r, b, h => by
    cases b <;> simp only [beq, Bool.false_eq_true, decide_eq_true_eq] at h
    rw [h]
  | .chain l xs ops, b, h => by
    cases b <;> simp only [beq, Bool.false_eq_true, Bool.and_eq_true, decide_eq_true_eq] at h
    obtain ⟨⟨rfl, hxs⟩, rfl⟩ := h
    rw [eq_of_beqList hxs]
  | .unary ops e, b, h => by
    cases b <;> simp only [beq, Bool.false_eq_true, Bool.and_eq_true, decide_eq_true_eq] at h
    obtain ⟨rfl, he⟩ := h
    rw [eq_of_beq he]
  | .operand o, b, h => by
    cases b <;> simp only [beq, Bool.false_eq_true] at h
    rw [eq_of_beqOperand h]
  | .call f xs, b, h => by
    cases b <;> simp only [beq, Bool.false_eq_true, Bool.and_eq_true, decide_eq_true_eq] at h
    obtain ⟨rfl, hxs⟩ := h
    rw [eq_of_beqList hxs]
  | .var x, b, h => by
    cases b <;> simp only [beq, Bool.false_eq_true, decide_eq_true_eq] at h
    rw [h]
  | .num v, b, h => by
    cases b <;> simp only [beq, Bool.false_eq_true, decide_eq_true_eq] at h
    rw [h]

theorem eq_of_beqOperand : ∀ {a b : Operand Node}, beqOperand a b = true → a = b
  | .call f xs, b, h => by
    cases b <;>
      simp only [beqOperand, Bool.false_eq_true, Bool.and_eq_true, decide_eq_true_eq] at h
    obtain ⟨rfl, hxs⟩ := h
    rw [eq_of_beqList hxs]
  | .ref r, b, h => by
    cases b <;> simp only [beqOperand, Bool.false_eq_true, decide_eq_true_eq] at h
    rw [h]
  | .num v, b, h => by
    cases b <;> simp only [beqOperand, Bool.false_eq_true, decide_eq_true_eq] at h
    rw [h]
  | .paren e, b, h => by
    cases b <;> simp only [beqOperand, Bool.false_eq_true] at h
    rw [eq_of_beq h]
  | .var x, b, h => by
    cases b <;> simp only [beqOperand, Bool.false_eq_true, decide_eq_true_eq] at h
    rw [h]

theorem eq_of_beqList : ∀ {xs ys : List Node}, beqList xs ys = true → xs = ys
  | [], ys, h => by
    cases ys with
    | nil => rfl
    | cons _ _ => simp [beqList] at h
  | x :: xs, ys, h => by
    cases ys with
    | nil => simp [beqList] at h
    | cons y ys =>
      simp only [beqList, Bool.and_eq_true] at h
      rw [eq_of_beq h.1, eq_of_beqList h.2]

theorem eq_of_beqBindings : ∀ {bs cs : List (Binding Node)}, beqBindings bs cs = true → bs = cs
  | [], cs, h => by
    cases cs with
    | nil => rfl
    | cons _ _ => simp [beqBindings] at h
  | ⟨x, e⟩ :: bs, cs, h => by
    cases cs with
    | nil => simp [beqBindings] at h
    | cons c cs =>
      simp only [beqBindings, Bool.and_eq_true, decide_eq_true_eq] at h
      obtain ⟨⟨rfl, he⟩, hbs⟩ := h
      rw [eq_of_beq he, eq_of_beqBindings hbs]

end

theorem beq_iff_eq {a b : Node} : beq a b = true ↔ a = b := ⟨eq_of_beq, fun h => h ▸ beq_self a⟩

instance : DecidableEq Node := fun a b => decidable_of_iff (beq a b = true) beq_iff_eq

end Node

end GridSweep
