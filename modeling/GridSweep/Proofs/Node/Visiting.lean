import GridSweep.Node.Visit
import GridSweep.Proofs.Node.Parts

/-!
# Visits that go on everywhere

Most visitors go on at every node with the copy they are given and edit nothing on the way down;
only references they may replace. Their visits follow one equation for each kind of node
(`Visitor.Descends`): the node is noted, its children are visited, and the results are put back in
their places. What stands in parentheses is fitted into an operand again, and there a leaf or an
operand stands for itself.

Such a visitor without hooks notes all parts of a tree in order and gives back what `Node.refit`
says (`Visitor.Scans.visit`). An observer replaces nothing. It leaves a tree as it is exactly if all
parentheses in it hold more than a leaf or an operand (`Visitor.visit_unchanged_iff`).
-/

namespace GridSweep

namespace Node

/-! ## Trees that are put together again -/

mutual

/-- The tree with its references replaced. The target of an output statement has to stay a
reference, and parentheses around leaves and operands are taken off. -/
def refit (swap : Ref → Node) : Node → Node
  | .program ⟨i, k, n, ins, ⟨t, bs, e⟩⟩ =>
    .program ⟨i, k, n, ins, ⟨(Visitor.asRef? (swap t)).getD t, refitBindings swap bs, refit swap e⟩⟩
  | .output ⟨t, bs, e⟩ =>
    .output ⟨(Visitor.asRef? (swap t)).getD t, refitBindings swap bs, refit swap e⟩
  | .binding ⟨x, e⟩ => .binding ⟨x, refit swap e⟩
  | .ref r => swap r
  | .chain l xs ops => .chain l (refitList swap xs) ops
  | .unary ops e => .unary ops (refit swap e)
  | .operand (.call f xs) => .operand (.call f (refitList swap xs))
  | .operand (.ref r) => .operand (.ofNode (swap r))
  | .operand (.paren e) => .operand (.ofNode (refit swap e))
  | .call f xs => .call f (refitList swap xs)
  | leaf => leaf

def refitList (swap : Ref → Node) : List Node → List Node
  | [] => []
  | x :: xs => refit swap x :: refitList swap xs

def refitBindings (swap : Ref → Node) : List (Binding Node) → List (Binding Node)
  | [] => []
  | ⟨x, e⟩ :: bs => ⟨x, refit swap e⟩ :: refitBindings swap bs

end

section

variable {swap : Ref → Node}

theorem refitList_eq_map (xs : List Node) : refitList swap xs = xs.map (refit swap) := by
  induction xs with
  | nil => rfl
  | cons x xs ih => rw [refitList, ih, List.map_cons]

theorem refitBindings_eq_map (bs : List (Binding Node)) :
    refitBindings swap bs = bs.map fun b => ⟨b.name, b.value.refit swap⟩ := by
  induction bs with
  | nil => rfl
  | cons b bs ih => rw [refitBindings, ih, List.map_cons]

theorem refit_operand (o : Operand Node) :
    refit swap (.operand o) = .operand (.ofNode (refit swap o.toNode)) := by
  cases o <;> simp [refit, Operand.toNode, Operand.ofNode]

end

/-! ## Parentheses that stay -/

/-- A node that gets parentheses when it is fitted into an operand. -/
def Compound : Node → Prop
  | .operand _ | .call .. | .ref _ | .num _ | .var _ => False
  | .program _ | .input _ | .output _ | .binding _ | .chain .. | .unary .. => True

/-- All parentheses in a tree hold compound nodes. -/
def Wrapped (n : Node) : Prop := ∀ e, .operand (.paren e) ∈ n.parts → e.Compound

variable {n x e : Node} {xs : List Node} {bs : List (Binding Node)}

theorem Compound.ofNode_eq (h : e.Compound) : Operand.ofNode e = .paren e := by
  cases e with
  | operand | call | ref | num | var => cases h
  | _ => rfl

theorem wrapped_iff :
    n.Wrapped ↔ (∀ e, n = .operand (.paren e) → e.Compound) ∧ ∀ c ∈ n.children, c.Wrapped := by
  simp only [Wrapped, parts_eq n, List.mem_cons, List.mem_flatMap]
  constructor
  · intro h
    exact ⟨fun e he => h e (.inl he.symm), fun c hc e he => h e (.inr ⟨c, hc, he⟩)⟩
  · rintro ⟨hroot, hchildren⟩ e (he | ⟨c, hc, he⟩)
    · exact hroot e he.symm
    · exact hchildren c hc e he

/-- Fitting a node into an operand adds no parentheses that would not stay. -/
theorem Wrapped.ofNode (h : x.Wrapped) : (Node.operand (.ofNode x)).Wrapped := by
  cases x with
  | operand o => exact h
  | _ =>
    refine wrapped_iff.2 ⟨by rintro e ⟨⟩ <;> trivial, ?_⟩
    simpa [children, Operand.ofNode, Operand.toNode] using h

/-- Below other nodes than parentheses, children stay children. -/
theorem children_refit (h : ∀ e, n ≠ .operand (.paren e)) :
    (n.refit .ref).children = n.children.map (refit .ref) := by
  cases n with
  | program p => simp [refit, children, Visitor.asRef?]
  | output o => simp [refit, children, Visitor.asRef?, refitBindings_eq_map]
  | operand o =>
    cases o with
    | paren e => exact absurd rfl (h e)
    | call => simp [refit, children, Operand.toNode]
    | _ => rfl
  | _ => simp [refit, children, refitList_eq_map]

theorem wrapped_refit (n : Node) : (n.refit .ref).Wrapped := by
  induction n using forall_of_children with
  | h n ih =>
    by_cases hparen : ∃ e, n = .operand (.paren e)
    · obtain ⟨e, rfl⟩ := hparen
      exact (ih e (by simp [children, Operand.toNode])).ofNode
    · rw [not_exists] at hparen
      refine wrapped_iff.2 ⟨fun e he => ?_, ?_⟩
      · cases n with
        | operand o =>
          cases o with
          | paren e => exact absurd rfl (hparen e)
          | _ => simp [refit, Operand.ofNode] at he
        | _ => simp [refit] at he
      · rw [children_refit hparen]
        exact List.forall_mem_map.2 ih

theorem refit_eq_of_children (hroot : ∀ e, n = .operand (.paren e) → e.Compound)
    (h : ∀ c ∈ n.children, c.refit .ref = c) : n.refit .ref = n := by
  have hmap (xs : List Node) (hxs : ∀ x ∈ xs, x.refit .ref = x) : xs.map (refit .ref) = xs :=
    (List.map_congr_left hxs).trans (List.map_id _)
  cases n with
  | program p =>
    have houtput := output.inj (h (.output p.output) (by simp [children]))
    rw [refit, houtput]
  | output o =>
    have hbindings : refitBindings .ref o.bindings = o.bindings := by
      rw [refitBindings_eq_map]
      refine (List.map_congr_left fun b hb => ?_).trans (List.map_id _)
      exact binding.inj (h (.binding b) (by simp [children, hb]))
    rw [refit, hbindings, h o.value (by simp [children])]
    rfl
  | binding b => rw [refit, h b.value (by simp [children])]
  | chain l xs ops => rw [refit, refitList_eq_map, hmap xs h]
  | unary ops e => rw [refit, h e (by simp [children])]
  | operand o =>
    rw [refit_operand, h o.toNode (by simp [children])]
    cases o with
    | paren e => rw [Operand.toNode, (hroot e rfl).ofNode_eq]
    | _ => rfl
  | call f xs => rw [refit, refitList_eq_map, hmap xs h]
  | input | ref | num | var => rfl

theorem Wrapped.refit_eq (h : n.Wrapped) : n.refit .ref = n := by
  induction n using forall_of_children with
  | h n ih =>
    obtain ⟨hroot, hchildren⟩ := wrapped_iff.1 h
    exact refit_eq_of_children hroot fun c hc => ih c hc (hchildren c hc)

/-- A tree is left as it is if it has no parentheses to take off. -/
theorem refit_eq_iff : n.refit .ref = n ↔ n.Wrapped :=
  ⟨fun h => h ▸ wrapped_refit n, Wrapped.refit_eq⟩

end Node

namespace Visitor

/-! ## One equation for each kind of node -/

section

variable {m : Type → Type} [Monad m] [LawfulMonad m] {v : Visitor m}

theorem slot_self {β : Type} [DecidableEq β] (child : β) (visited : m Node)
    (fit? : Node → Option β) :
    slot child child visited fit? = (fun n => (fit? n).getD child) <$> visited := by
  rw [slot, if_pos rfl, map_eq_pure_bind]

theorem inputs_self (ins : List Input) :
    inputs v ins ins = ins.mapM fun i => (fun n => (asInput? n).getD i) <$> v.visit (.input i) := by
  induction ins with
  | nil => rfl
  | cons i ins ih => rw [inputs, slot_self, ih, List.mapM_cons, visit]

theorem visitList_self (xs : List Node) : visitList v xs xs = xs.mapM v.visit := by
  induction xs with
  | nil => rfl
  | cons x xs ih =>
    rw [visitList, slot_self, ih, List.mapM_cons]
    simp

theorem visitBindings_self (bs : List (Binding Node)) : visitBindings v bs bs =
    bs.mapM fun b => (fun n => (asBinding? n).getD b) <$> v.visit (.binding b) := by
  induction bs with
  | nil => rfl
  | cons b bs ih => rw [visitBindings, slot_self, ih, List.mapM_cons, visit]

omit [LawfulMonad m] in
theorem visitOperand_eq (o : Operand Node) : visitOperand v o = v.visit o.toNode := by
  cases o <;> rw [visitOperand, Operand.toNode]
  all_goals rw [visit]

/-- The visitor notes a node and goes on with it as it is. At references it may do anything. -/
structure Descends (v : Visitor m) (note : Node → m Unit) : Prop where
  enter : ∀ n, (∀ r, n ≠ .ref r) → v.enter n = note n >>= fun _ => pure (.descend n)
  before : ∀ n, v.before n = pure n

namespace Descends

variable {note : Node → m Unit} (h : Descends v note)

include h

theorem around_eq {n : Node} (hn : ∀ r, n ≠ .ref r) (children : Node → m Node) :
    v.around n children = (do
      note n
      v.after (← children n)) := by
  simp [around, h.enter n hn, h.before]

theorem visit_program (p : Program Node) : v.visit (.program p) = (do
    note (.program p)
    let ins ← p.inputs.mapM fun i => (fun n => (asInput? n).getD i) <$> v.visit (.input i)
    let o ← v.visit (.output p.output)
    v.after (.program { p with inputs := ins, output := (asOutput? o).getD p.output })) := by
  rw [visit, h.around_eq (by simp)]
  simp [onProgram, inputs_self, slot_self, visit]

theorem visit_input (i : Input) : v.visit (.input i) = (do
    note (.input i)
    v.after (.input i)) := by
  rw [visit, h.around_eq (by simp)]
  simp

theorem visit_output (o : Output Node) : v.visit (.output o) = (do
    note (.output o)
    let t ← v.visit (.ref o.target)
    let bs ← o.bindings.mapM fun b => (fun n => (asBinding? n).getD b) <$> v.visit (.binding b)
    let e ← v.visit o.value
    v.after (.output ⟨(asRef? t).getD o.target, bs, e⟩)) := by
  rw [visit, visitOutput, h.around_eq (by simp)]
  simp [onOutput, target, visitBindings_self, slot_self, visit]

theorem visit_binding (b : Binding Node) : v.visit (.binding b) = (do
    note (.binding b)
    let e ← v.visit b.value
    v.after (.binding ⟨b.name, e⟩)) := by
  rw [visit, visitBinding, h.around_eq (by simp)]
  simp [onBinding, slot_self]

theorem visit_chain (l : Level) (xs : List Node) (ops : List String) :
    v.visit (.chain l xs ops) = (do
      note (.chain l xs ops)
      let ys ← xs.mapM v.visit
      v.after (.chain l ys ops)) := by
  rw [visit, h.around_eq (by simp)]
  simp [onChain, visitList_self]

theorem visit_unary (ops : List String) (e : Node) : v.visit (.unary ops e) = (do
    note (.unary ops e)
    let e' ← v.visit e
    v.after (.unary ops e')) := by
  rw [visit, h.around_eq (by simp)]
  simp [onUnary, slot_self]

theorem visit_operand (o : Operand Node) : v.visit (.operand o) = (do
    note (.operand o)
    let n ← v.visit o.toNode
    v.after (.operand (.ofNode n))) := by
  rw [visit, h.around_eq (by simp)]
  simp [onOperand, slot_self, visitOperand_eq]

theorem visit_call (f : String) (xs : List Node) : v.visit (.call f xs) = (do
    note (.call f xs)
    let ys ← xs.mapM v.visit
    v.after (.call f ys)) := by
  rw [visit, h.around_eq (by simp)]
  simp [onCall, visitList_self]

theorem visit_var (x : String) : v.visit (.var x) = (do
    note (.var x)
    v.after (.var x)) := by
  rw [visit, h.around_eq (by simp)]
  simp

theorem visit_num (x : Binary64) : v.visit (.num x) = (do
    note (.num x)
    v.after (.num x)) := by
  rw [visit, h.around_eq (by simp)]
  simp

end Descends

end

/-! ## Visits that take notes -/

variable {σ α β : Type} {note : Node → σ → σ}

/-- A computation gives a value and notes some nodes in order, whatever is known before. -/
def Gives (note : Node → σ → σ) (x : StateM σ α) (a : α) (seen : List Node) : Prop :=
  ∀ s, x.run s = (a, seen.foldl (fun s n => note n s) s)

namespace Gives

theorem pure (a : α) : Gives note (pure a) a [] := fun _ => rfl

theorem bind {x : StateM σ α} {f : α → StateM σ β} {a : α} {b : β} {seen later : List Node}
    (hx : Gives note x a seen) (hf : Gives note (f a) b later) :
    Gives note (x >>= f) b (seen ++ later) := by
  intro s
  have hrun : (x >>= f).run s = (f (x.run s).1).run (x.run s).2 := rfl
  rw [hrun, hx s, hf, List.foldl_append]

theorem map {x : StateM σ α} {a : α} {seen : List Node} (f : α → β) (h : Gives note x a seen) :
    Gives note (f <$> x) (f a) seen := by
  intro s
  have hrun : (f <$> x).run s = (f (x.run s).1, (x.run s).2) := rfl
  rw [hrun, h s]

theorem bind_pure {x : StateM σ α} {a : α} {seen : List Node} (f : α → β)
    (h : Gives note x a seen) : Gives note (x >>= fun a => Pure.pure (f a)) (f a) seen := h.map f

theorem noted {x : StateM σ α} {a : α} {seen : List Node} (n : Node) (h : Gives note x a seen) :
    Gives note (modify (note n) >>= fun _ => x) a (n :: seen) := fun s => h (note n s)

theorem mapM {f : α → StateM σ β} {g : α → β} {seen : α → List Node} {xs : List α}
    (h : ∀ x ∈ xs, Gives note (f x) (g x) (seen x)) :
    Gives note (xs.mapM f) (xs.map g) (xs.flatMap seen) := by
  induction xs with
  | nil => exact .pure []
  | cons x xs ih =>
    obtain ⟨hx, hxs⟩ := List.forall_mem_cons.1 h
    rw [List.mapM_cons, List.map_cons, List.flatMap_cons]
    simpa using hx.bind ((ih hxs).map (g x :: ·))

end Gives

/-- The visitor takes notes, has no hooks, and replaces nothing but references. -/
structure Scans (v : Visitor (StateM σ)) (note : Node → σ → σ) (swap : Ref → Node) : Prop extends
    Descends v fun n => modify (note n) where
  after : ∀ n, v.after n = pure n
  ref : ∀ r, Gives note (v.visit (.ref r)) (swap r) [.ref r]

/-- What a visitor notes are the parts of the tree, and what it gives back is the tree put together
again. -/
theorem Scans.visit {v : Visitor (StateM σ)} {swap : Ref → Node} (h : Scans v note swap)
    (n : Node) : Gives note (v.visit n) (n.refit swap) n.parts := by
  induction n using Node.forall_of_children with
  | h n ih =>
    rw [Node.parts_eq]
    -- inputs and bindings go back into lists of their own kind, all other results fit as they are
    cases n with
    | program p =>
      have hins : Gives note (p.inputs.mapM fun i =>
          (fun n => (asInput? n).getD i) <$> v.visit (.input i)) (p.inputs.map id)
          (p.inputs.flatMap fun i => (Node.input i).parts) :=
        .mapM fun i hi => (ih (.input i) (by simp [Node.children, hi])).map _
      have hout := ih (.output p.output) (by simp [Node.children])
      rw [h.visit_program]
      simp only [h.after, Node.children, List.flatMap_append, List.flatMap_map,
        List.flatMap_singleton]
      rw [List.map_id] at hins
      exact .noted _ (hins.bind (hout.bind_pure _))
    | input i =>
      rw [h.visit_input, h.after]
      exact .noted _ (.pure _)
    | output o =>
      have htarget := ih (.ref o.target) (by simp [Node.children])
      have hbindings : Gives note (o.bindings.mapM fun b =>
          (fun n => (asBinding? n).getD b) <$> v.visit (.binding b))
          (o.bindings.map fun b => ⟨b.name, b.value.refit swap⟩)
          (o.bindings.flatMap fun b => (Node.binding b).parts) :=
        .mapM fun b hb => (ih (.binding b) (by simp [Node.children, hb])).map _
      have hvalue := ih o.value (by simp [Node.children])
      rw [h.visit_output, Node.refit, Node.refitBindings_eq_map]
      simp only [h.after, Node.children, List.flatMap_cons, List.flatMap_append, List.flatMap_map,
        List.flatMap_nil, List.append_nil]
      exact .noted _ (htarget.bind (hbindings.bind (hvalue.bind_pure _)))
    | binding b =>
      have hvalue := ih b.value (by simp [Node.children])
      rw [h.visit_binding]
      simp only [h.after, Node.children, List.flatMap_singleton]
      exact .noted _ (hvalue.bind_pure _)
    | ref r => exact h.ref r
    | chain l xs ops =>
      rw [h.visit_chain, Node.refit, Node.refitList_eq_map]
      simp only [h.after]
      exact .noted _ ((Gives.mapM ih).bind_pure _)
    | unary ops e =>
      have he := ih e (by simp [Node.children])
      rw [h.visit_unary]
      simp only [h.after, Node.children, List.flatMap_singleton]
      exact .noted _ (he.bind_pure _)
    | operand o =>
      have ho := ih o.toNode (by simp [Node.children])
      rw [h.visit_operand, Node.refit_operand]
      simp only [h.after, Node.children, List.flatMap_singleton]
      exact .noted _ (ho.bind_pure _)
    | call f xs =>
      rw [h.visit_call, Node.refit, Node.refitList_eq_map]
      simp only [h.after]
      exact .noted _ ((Gives.mapM ih).bind_pure _)
    | var x =>
      rw [h.visit_var, h.after]
      exact .noted _ (.pure _)
    | num x =>
      rw [h.visit_num, h.after]
      exact .noted _ (.pure _)

/-- A visitor that takes notes and goes on with every node as it is. -/
def observer (note : Node → σ → σ) : Visitor (StateM σ) :=
  ofEnter fun n => do
    modify (note n)
    return .descend n

theorem scans_observer (note : Node → σ → σ) : Scans (observer note) note .ref where
  enter _ _ := rfl
  before _ := rfl
  after _ := rfl
  ref _ _ := rfl

/-- An observer gives a tree back as it was exactly if all parentheses in it hold compound nodes. -/
theorem visit_unchanged_iff (note : Node → σ → σ) (s : σ) (n : Node) :
    (((observer note).visit n).run s).1 = n ↔ n.Wrapped := by
  rw [(scans_observer note).visit n s, Node.refit_eq_iff]

/-- `(a)` is lowered with its parentheses, and visiting takes them off. -/
theorem leaf_unwrapped : ∃ n, (Surface.Expr.operand (.paren (.operand (.var "a")))).lower = .ok n ∧
    (((observer fun _ (seen : Nat) => seen + 1).visit n).run 0) = (.operand (.var "a"), 3) ∧
    n ≠ .operand (.var "a") :=
  ⟨_, rfl, rfl, by decide⟩

end Visitor

end GridSweep
