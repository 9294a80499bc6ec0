import GridSweep.Proofs.Node.Visiting

/-!
# References, variables, names and simple forms as visits

Reading the references of a tree, listing its variables, renaming its references and simplifying it
are visits. The first three note the references or variables on the way and go on everywhere else:
the parts of the tree are seen in order, and the first reference of the wrong arity is the error
(`footprint_eq_visit`, `distinctVars_eq_visit`, `renameRefs_eq_visit`).

Simplification works behind the children. Its rule reads the operators of a chain by position, and
the visit fails where there is none. That is where an operator is missing in the tree, and nowhere
else (`simplifyAt?_eq`): splicing and folding take away no operator that is read later.
-/

namespace GridSweep

namespace Node

variable {n : Node}

theorem mem_refs_of_child {c : Node} {r : Ref} (hc : c ∈ n.children) (hr : r ∈ c.refs) :
    r ∈ n.refs := by
  rw [mem_refs_iff] at hr ⊢
  rw [parts_eq]
  exact List.mem_cons_of_mem _ (List.mem_flatMap.2 ⟨c, hc, hr⟩)

/-- A tree with variables in place of its references. -/
theorem refit_eq_mapRefs {swap : Ref → Node} {f : Ref → String}
    (h : ∀ r ∈ n.refs, swap r = .var (f r)) : n.refit swap = n.mapRefs f := by
  induction n using forall_of_children with
  | h n ih =>
    replace ih : ∀ c ∈ n.children, c.refit swap = c.mapRefs f :=
      fun c hc => ih c hc fun r hr => h r (mem_refs_of_child hc hr)
    cases n with
    | program p =>
      have houtput := output.inj (ih (.output p.output) (by simp [children]))
      rw [refit, mapRefs, houtput]
    | output o =>
      have hbindings : refitBindings swap o.bindings = mapRefsBindings f o.bindings := by
        rw [refitBindings_eq_map, mapRefsBindings_eq_map]
        exact List.map_congr_left fun b hb => binding.inj (ih (.binding b) (by simp [children, hb]))
      rw [refit, mapRefs, hbindings, ih o.value (by simp [children]), h o.target (by simp [refs])]
      rfl
    | binding b => rw [refit, mapRefs, ih b.value (by simp [children])]
    | ref r => exact h r (by simp [refs])
    | chain l xs ops =>
      rw [refit, mapRefs, refitList_eq_map, mapRefsList_eq_map]
      exact congrArg (chain l · ops) (List.map_congr_left ih)
    | unary ops e => rw [refit, mapRefs, ih e (by simp [children])]
    | operand o =>
      rw [refit_operand, ih o.toNode (by simp [children])]
      cases o <;> rfl
    | call g xs =>
      rw [refit, mapRefs, refitList_eq_map, mapRefsList_eq_map]
      exact congrArg (call g) (List.map_congr_left ih)
    | input | var | num => rfl

end Node

namespace Visitor

variable {σ α β : Type}

/-- Notes what is picked from a node. -/
def picking (leaf? : Node → Option α) (f : σ → α → σ) (n : Node) (s : σ) : σ :=
  match leaf? n with
  | some a => f s a
  | none => s

theorem foldl_parts (leaf? : Node → Option α) (f : σ → α → σ) (n : Node) (s : σ) :
    n.parts.foldl (fun s m => picking leaf? f m s) s = (n.gather leaf?).foldl f s := by
  rw [Node.gather, List.foldl_filterMap]
  rfl

/-- Notes each reference and puts something in its place. -/
def atRefs (note : σ → Ref → σ) (swap : Ref → Node) : Visitor (StateM σ) :=
  ofEnter fun n => do
    match n with
    | .ref r =>
      modify (note · r)
      return .replace (swap r)
    | n => return .descend n

theorem scans_atRefs (note : σ → Ref → σ) (swap : Ref → Node) :
    Scans (atRefs note swap) (picking Node.ref? note) swap where
  enter n hn := by
    cases n with
    | ref r => exact absurd rfl (hn r)
    | _ => rfl
  before _ := rfl
  after _ := rfl
  ref _ _ := rfl

/-! ## Footprints -/

/-- The footprint of the references so far, and the first error. -/
structure Collected where
  refs : Footprint
  error : Option Error

namespace Collected

def add (origin : List Int) (c : Collected) (r : Ref) : Collected :=
  match Offset.relative r.idx origin with
  | .ok o => { c with refs := c.refs.insert r.name o }
  | .error e => { c with error := c.error.or (some e) }

def outcome (c : Collected) : Except Error Footprint :=
  match c.error with
  | some e => .error e
  | none => .ok c.refs

theorem outcome_add (origin : List Int) (c : Collected) (r : Ref) :
    (c.add origin r).outcome =
      c.outcome >>= fun f => return f.insert r.name (← Offset.relative r.idx origin) := by
  obtain ⟨refs, error⟩ := c
  unfold add
  cases Offset.relative r.idx origin <;> cases error <;> rfl

theorem outcome_foldl (origin : List Int) (refs : List Ref) (c : Collected) :
    (refs.foldl (add origin) c).outcome = c.outcome >>= fun f =>
      refs.foldlM (fun f r => return f.insert r.name (← Offset.relative r.idx origin)) f := by
  induction refs generalizing c with
  | nil => exact (bind_pure c.outcome).symm
  | cons r refs ih => simp [ih, outcome_add]

end Collected

/-- Adds each reference to the footprint and leaves it in its place. -/
def collector (origin : List Int) : Visitor (StateM Collected) :=
  atRefs (Collected.add origin) .ref

/-- A footprint is collected in one visit, which goes on behind an error. -/
theorem footprint_eq_visit (n : Node) (origin : List Int) :
    n.footprint origin = (((collector origin).visit n).run ⟨[], none⟩).2.outcome := by
  rw [collector, (scans_atRefs ..).visit n, foldl_parts, ← Node.refs_eq, Collected.outcome_foldl]
  rfl

/-! ## Variables -/

/-- Variables are listed as they are met for the first time. -/
theorem distinctVars_eq_visit (n : Node) : n.distinctVars =
    (((observer (picking Node.var? fun seen x =>
      if x ∈ seen then seen else seen ++ [x])).visit n).run []).2 := by
  rw [(scans_observer _).visit n, foldl_parts, ← Node.vars_eq]
  rfl

/-! ## Renaming -/

/-- The error of a reference of the wrong arity. -/
def mismatch? (origin : List Int) (r : Ref) : Option Error :=
  match Offset.relative r.idx origin with
  | .ok _ => none
  | .error e => some e

/-- The name of the lane value of a reference; one of the wrong arity stays. -/
def laneOf (origin : List Int) (r : Ref) : Node :=
  match Offset.relative r.idx origin with
  | .ok o => .var (Offset.tapName r.name o)
  | .error _ => .ref r

/-- Puts names in the place of references and keeps the first error. -/
def renamer (origin : List Int) : Visitor (StateM (Option Error)) :=
  atRefs (fun error r => error.or (mismatch? origin r)) (laneOf origin)

theorem foldl_or {f : α → Option β} (xs : List α) (s : Option β) :
    xs.foldl (fun s x => s.or (f x)) s = s.or (xs.findSome? f) := by
  induction xs generalizing s with
  | nil => simp
  | cons x xs ih =>
    rw [List.foldl_cons, ih, List.findSome?_cons, Option.or_assoc]
    cases f x <;> simp

theorem laneOf_eq {origin : List Int} {r : Ref} (h : mismatch? origin r = none) :
    laneOf origin r = .var (Node.tapOf origin r) := by
  unfold mismatch? Offset.relative at h
  unfold laneOf Offset.relative
  by_cases hlength : r.idx.length = origin.length
  · rw [if_pos hlength]
    rfl
  · rw [if_neg hlength] at h
    cases h

theorem renameRefs_eq (n : Node) (origin : List Int) : n.renameRefs origin =
    match n.refs.findSome? (mismatch? origin) with
    | some e => .error e
    | none => .ok (n.mapRefs (Node.tapOf origin)) := by
  unfold Node.renameRefs
  generalize n.mapRefs (Node.tapOf origin) = renamed
  induction n.refs with
  | nil => rfl
  | cons r refs ih =>
    rw [List.forIn_cons, List.findSome?_cons, mismatch?]
    cases Offset.relative r.idx origin with
    | error e => rfl
    | ok o => exact ih

/-- Renaming is one visit. If a reference has the wrong arity then the tree is thrown away. -/
theorem renameRefs_eq_visit (n : Node) (origin : List Int) :
    let out := ((renamer origin).visit n).run none
    n.renameRefs origin = match out.2 with
      | some e => .error e
      | none => .ok out.1 := by
  rw [renamer, (scans_atRefs ..).visit n, renameRefs_eq]
  dsimp only
  rw [foldl_parts, ← Node.refs_eq, foldl_or, Option.none_or]
  split
  · rfl
  · next hnone =>
    have hlanes : ∀ r ∈ n.refs, laneOf origin r = .var (Node.tapOf origin r) :=
      fun r hr => laneOf_eq (List.findSome?_eq_none_iff.1 hnone r hr)
    rw [Node.refit_eq_mapRefs hlanes]

end Visitor

/-! ## Simple trees -/

namespace Node

variable {l : Level} {n x first : Node} {xs : List Node} {ops : List String}
  {p : List Node × List String}

theorem hasOperators_operand (o : Operand Node) :
    (operand o).hasOperators = o.toNode.hasOperators := by
  cases o <;> simp [hasOperators, Operand.toNode]

theorem simplify_operand (o : Operand Node) :
    (operand o).simplify = .operand (.ofNode o.toNode.simplify) := by
  cases o <;> simp [simplify, Operand.toNode, Operand.ofNode]

/-- An operator is missing in a node or below it. -/
theorem hasOperators_iff : n.hasOperators = true ↔
    (∀ l xs ops, n = .chain l xs ops → xs.length ≤ ops.length + 1) ∧
      ∀ c ∈ n.children, c.hasOperators = true := by
  cases n with
  | program p => simp [hasOperators, children, or_imp, forall_and]
  | output o => simp [hasOperators, hasOperatorsBindings_eq_all, children, or_imp, forall_and]
  | operand o => simp [hasOperators_operand, children]
  | _ => simp [hasOperators, hasOperatorsList_eq_all, children]

/-- A tree in which no operator is missing and no parentheses are to be taken off. -/
structure Settled (n : Node) : Prop where
  hasOperators : n.hasOperators = true
  wrapped : n.Wrapped

theorem settled_iff : n.Settled ↔ (∀ l xs ops, n = .chain l xs ops → xs.length ≤ ops.length + 1) ∧
    (∀ e, n = .operand (.paren e) → e.Compound) ∧ ∀ c ∈ n.children, c.Settled := by
  constructor
  · rintro ⟨hops, hwrapped⟩
    obtain ⟨hroot, hops⟩ := hasOperators_iff.1 hops
    obtain ⟨hparen, hwrapped⟩ := wrapped_iff.1 hwrapped
    exact ⟨hroot, hparen, fun c hc => ⟨hops c hc, hwrapped c hc⟩⟩
  · rintro ⟨hroot, hparen, hchildren⟩
    exact ⟨hasOperators_iff.2 ⟨hroot, fun c hc => (hchildren c hc).hasOperators⟩,
      wrapped_iff.2 ⟨hparen, fun c hc => (hchildren c hc).wrapped⟩⟩

/-- Nodes other than chains and parentheses are settled if what is below them is. -/
theorem settled_of_children (hchain : ∀ l xs ops, n ≠ .chain l xs ops)
    (hparen : ∀ e, n ≠ .operand (.paren e)) (h : ∀ c ∈ n.children, c.Settled) : n.Settled :=
  settled_iff.2 ⟨fun l xs ops he => absurd he (hchain l xs ops),
    fun e he => absurd he (hparen e), h⟩

theorem settled_num (v : Binary64) : (operand (.num v)).Settled := by
  refine settled_of_children (by simp) (by simp) (List.forall_mem_singleton.2 ?_)
  exact settled_of_children (by simp [Operand.toNode]) (by simp [Operand.toNode])
    (List.forall_mem_nil _)

theorem Settled.ofNode (h : n.Settled) : (operand (.ofNode n)).Settled := by
  refine ⟨?_, h.wrapped.ofNode⟩
  cases n with
  | operand o => exact h.hasOperators
  | _ => exact (hasOperators_operand _).trans h.hasOperators

theorem Settled.asOperand (h : n.Settled) : n.asOperand.Settled := by
  unfold Node.asOperand
  split
  · exact h
  · exact h
  · exact h
  · exact h.ofNode

theorem Settled.nested (h : x.Settled) (hx : nestedChain? l x = some (xs, ops)) :
    (chain l xs ops).Settled := by
  rcases nestedChain?_eq_some.1 hx with rfl | rfl
  · exact h
  · exact (settled_iff.1 h).2.2 _ List.mem_cons_self

/-- Settled operands with enough operators to stand between them. -/
def Stocked (p : List Node × List String) : Prop :=
  p.1.length ≤ p.2.length + 1 ∧ ∀ x ∈ p.1, x.Settled

theorem settled_chain : (chain l xs ops).Settled ↔ Stocked (xs, ops) := by
  rw [settled_iff, Stocked]
  simp [children]

/-- An operand is spliced in with all its operators and the one in front of it. -/
theorem Settled.segment (before : Option String) (hx : x.Settled) :
    (segment l before x).1.length + before.toList.length ≤ (segment l before x).2.length + 1 ∧
      ∀ y ∈ (segment l before x).1, y.Settled := by
  have hself : [x].length + before.toList.length ≤ before.toList.length + 1 ∧
      ∀ y ∈ [x], y.Settled :=
    ⟨Nat.le_of_eq (Nat.add_comm ..), List.forall_mem_singleton.2 hx⟩
  unfold Node.segment
  split
  · next xs inner hnested =>
    obtain ⟨hlength, hall⟩ := settled_chain.1 (hx.nested hnested)
    split
    · next os hos =>
      have hspliced := length_of_spliced? hos
      refine ⟨?_, hall⟩
      dsimp only at hlength ⊢
      rw [List.length_append]
      omega
    · exact hself
  · exact hself

theorem flattenRest_stocked (hlength : xs.length ≤ ops.length) (hall : ∀ x ∈ xs, x.Settled) :
    (flattenRest l xs ops).1.length ≤ (flattenRest l xs ops).2.length ∧
      ∀ y ∈ (flattenRest l xs ops).1, y.Settled := by
  induction xs generalizing ops with
  | nil => simp [flattenRest]
  | cons x xs ih =>
    cases ops with
    | nil => simp at hlength
    | cons op ops =>
      obtain ⟨hx, hxs⟩ := List.forall_mem_cons.1 hall
      obtain ⟨hsegment, hsegmentAll⟩ := hx.segment (l := l) (some op)
      obtain ⟨hrest, hrestAll⟩ := ih (by simpa using hlength) hxs
      rw [Option.toList_some, List.length_singleton] at hsegment
      rw [flattenRest]
      refine ⟨?_, List.forall_mem_append.2 ⟨hsegmentAll, hrestAll⟩⟩
      simp only [List.length_append]
      omega

theorem Stocked.flatten (h : Stocked (xs, ops)) : Stocked (flatten l xs ops) := by
  obtain ⟨hlength, hall⟩ := h
  cases xs with
  | nil => exact ⟨Nat.zero_le _, List.forall_mem_nil _⟩
  | cons x xs =>
    obtain ⟨hx, hxs⟩ := List.forall_mem_cons.1 hall
    obtain ⟨hsegment, hsegmentAll⟩ := hx.segment (l := l) none
    obtain ⟨hrest, hrestAll⟩ := flattenRest_stocked (l := l) (by simpa using hlength) hxs
    rw [Option.toList_none, List.length_nil] at hsegment
    refine ⟨?_, List.forall_mem_append.2 ⟨hsegmentAll, hrestAll⟩⟩
    simp only [Node.flatten, List.length_append]
    omega

/-- Folding takes an operand with each operator. -/
theorem Stocked.foldFront (h : Stocked (first :: xs, ops)) :
    Stocked (foldFront l first xs ops) := by
  fun_induction Node.foldFront l first xs ops with
  | case1 first x xs op ops v hpair ih =>
    obtain ⟨-, -, v, -, -, -, rfl⟩ := foldedPair?_eq_some.1 hpair
    obtain ⟨hlength, hall⟩ := h
    refine ih ⟨by simpa using hlength, List.forall_mem_cons.2 ⟨settled_num v, ?_⟩⟩
    exact fun y hy => hall y (List.mem_cons_of_mem _ (List.mem_cons_of_mem _ hy))
  | case2 => exact h
  | case3 => exact h

theorem Stocked.foldLiterals (h : Stocked p) : Stocked (foldLiterals l p.1 p.2) := by
  obtain ⟨xs, ops⟩ := p
  cases xs with
  | nil => exact h
  | cons x xs => exact h.foldFront

theorem Stocked.simplifyChain (h : Stocked (xs, ops)) : (simplifyChain l xs ops).Settled := by
  have hfolded := (h.flatten (l := l)).foldLiterals (l := l)
  unfold Node.simplifyChain
  -- one operand stands alone; none or several are still a chain
  generalize Node.flatten l xs ops = flat at *
  obtain ⟨ys, os⟩ := flat
  dsimp only at *
  generalize Node.foldLiterals l ys os = folded at *
  obtain ⟨zs, ps⟩ := folded
  rcases zs with _ | ⟨z, _ | ⟨z', zs⟩⟩
  · exact settled_chain.2 hfolded
  · exact (hfolded.2 z List.mem_cons_self).asOperand
  · exact settled_chain.2 hfolded

theorem Settled.reduceSigns (ops : List String) (h : n.Settled) :
    (reduceSigns ops n).2.Settled := by
  fun_induction Node.reduceSigns ops n with
  | case1 e => exact h
  | case2 e rest ih => exact ih h
  | case3 e rest ih => exact ih h
  | case4 e rest _ v _ ih => exact ih (settled_num v.neg)
  | case5 e rest _ _ => exact h
  | case6 e op rest _ _ _ => exact h

theorem Settled.simplifyUnary (ops : List String) (h : n.Settled) :
    (simplifyUnary ops n).Settled := by
  have hreduced := h.reduceSigns ops.reverse
  unfold Node.simplifyUnary
  split
  · next e heq =>
    rw [heq] at hreduced
    exact hreduced.asOperand
  · next os e _ heq =>
    rw [heq] at hreduced
    exact settled_of_children (by simp) (by simp) (List.forall_mem_singleton.2 hreduced)

/-- Simplification takes away no operator that is read later, and leaves no parentheses to take
off. -/
theorem settled_simplify (h : n.hasOperators = true) : n.simplify.Settled := by
  induction n using forall_of_children with
  | h n ih =>
    obtain ⟨hroot, hchildren⟩ := hasOperators_iff.1 h
    replace ih : ∀ c ∈ n.children, c.simplify.Settled := fun c hc => ih c hc (hchildren c hc)
    cases n with
    | program p =>
      have houtput := ih (.output p.output) (by simp [children])
      have hinputs : ∀ c ∈ p.inputs.map input, c.Settled := List.forall_mem_map.2 fun i hi =>
        ih (.input i) (by simp [children, hi])
      refine settled_of_children (by simp [simplify]) (by simp [simplify]) ?_
      exact List.forall_mem_append.2 ⟨hinputs, List.forall_mem_singleton.2 houtput⟩
    | output o =>
      have htarget := ih (.ref o.target) (by simp [children])
      have hvalue := ih o.value (by simp [children])
      have hbindings : ∀ c ∈ (simplifyBindings o.bindings).map binding, c.Settled := by
        rw [simplifyBindings_eq_map, List.map_map]
        exact List.forall_mem_map.2 fun b hb => ih (.binding b) (by simp [children, hb])
      refine settled_of_children (by simp [simplify]) (by simp [simplify])
        (List.forall_mem_cons.2 ⟨htarget, ?_⟩)
      exact List.forall_mem_append.2 ⟨hbindings, List.forall_mem_singleton.2 hvalue⟩
    | binding b =>
      have hvalue := ih b.value (by simp [children])
      exact settled_of_children (by simp [simplify]) (by simp [simplify])
        (List.forall_mem_singleton.2 hvalue)
    | chain l xs ops =>
      rw [simplify, simplifyList_eq_map]
      have hlength := hroot l xs ops rfl
      exact Stocked.simplifyChain ⟨by simpa using hlength, List.forall_mem_map.2 ih⟩
    | unary ops e => exact (ih e (by simp [children])).simplifyUnary ops
    | operand o =>
      rw [simplify_operand]
      exact (ih o.toNode (by simp [children])).ofNode
    | call f xs =>
      rw [simplify, simplifyList_eq_map]
      exact settled_of_children (by simp) (by simp) (List.forall_mem_map.2 ih)
    | input | ref | var | num =>
      exact settled_of_children (by simp [simplify]) (by simp [simplify]) (List.forall_mem_nil _)

/-! ## Simplification -/

/-- What operands after the first one contribute to a flattened chain. The operator in front of the
next one is at position `i`. -/
def restAt? (l : Level) (ops : List String) : Nat → List Node → Option (List Node × List String)
  | _, [] => some ([], [])
  | i, x :: xs => do
    let op ← ops[i]?
    let rest ← restAt? l ops (i + 1) xs
    return ((segment l (some op) x).1 ++ rest.1, (segment l (some op) x).2 ++ rest.2)

def flattenAt? (l : Level) (xs : List Node) (ops : List String) :
    Option (List Node × List String) :=
  match xs with
  | [] => some ([], [])
  | x :: xs => do
    let rest ← restAt? l ops 0 xs
    return ((segment l none x).1 ++ rest.1, (segment l none x).2 ++ rest.2)

/-- Folds literals into the first operand. With two operands there has to be a first operator. -/
def foldFrontAt? (l : Level) (first : Node) :
    List Node → List String → Option (List Node × List String)
  | [], ops => some ([first], ops)
  | x :: xs, ops => do
    let op ← ops[0]?
    match foldedPair? l op first x with
    | some v => foldFrontAt? l v xs ops.tail
    | none => return (first :: x :: xs, ops)

def foldLiteralsAt? (l : Level) (xs : List Node) (ops : List String) :
    Option (List Node × List String) :=
  match xs with
  | [] => some ([], ops)
  | x :: xs => foldFrontAt? l x xs ops

def simplifyChainAt? (l : Level) (xs : List Node) (ops : List String) : Option Node := do
  let flat ← flattenAt? l xs ops
  match ← foldLiteralsAt? l flat.1 flat.2 with
  | ([x], _) => return asOperand x
  | (ys, os) => return .chain l ys os

/-- A node with simple children, in which every operator that is read is there. -/
def simplifyLocal? : Node → Option Node
  | .chain l xs ops => simplifyChainAt? l xs ops
  | .unary ops e => some (simplifyUnary ops e)
  | .operand (.paren e) => some (.operand (.ofNode e))
  | n => some n

/-- Goes on everywhere and simplifies each node behind its children. -/
def simplifier : Visitor Option where
  enter n := some (.descend n)
  before := some
  after := simplifyLocal?

/-- The simplified tree, if every operator that is read is there. -/
def simplifyAt? (n : Node) : Option Node := simplifier.visit n

theorem restAt?_eq {i : Nat} (h : i + xs.length ≤ ops.length) :
    restAt? l ops i xs = some (flattenRest l xs (ops.drop i)) := by
  induction xs generalizing i with
  | nil => simp [restAt?, flattenRest]
  | cons x xs ih =>
    rw [List.length_cons] at h
    have hi : i < ops.length := by omega
    rw [restAt?, List.getElem?_eq_getElem hi, ih (by omega), List.drop_eq_getElem_cons hi]
    rfl

theorem restAt?_eq_none {i : Nat} (h : ops.length < i + xs.length) (hi : i ≤ ops.length) :
    restAt? l ops i xs = none := by
  induction xs generalizing i with
  | nil =>
    rw [List.length_nil] at h
    omega
  | cons x xs ih =>
    rw [List.length_cons] at h
    rw [restAt?]
    by_cases hlt : i < ops.length
    · rw [List.getElem?_eq_getElem hlt, ih (by omega) hlt]
      rfl
    · rw [List.getElem?_eq_none (by omega)]
      rfl

theorem flattenAt?_eq (l : Level) (xs : List Node) (ops : List String) : flattenAt? l xs ops =
    if xs.length ≤ ops.length + 1 then some (flatten l xs ops) else none := by
  cases xs with
  | nil => rfl
  | cons x xs =>
    rw [flattenAt?, List.length_cons]
    split
    · rw [restAt?_eq (by omega), List.drop_zero]
      rfl
    · rw [restAt?_eq_none (by omega) (Nat.zero_le _)]
      rfl

theorem foldFrontAt?_eq (h : xs.length ≤ ops.length) :
    foldFrontAt? l first xs ops = some (foldFront l first xs ops) := by
  induction xs generalizing first ops with
  | nil => rfl
  | cons x xs ih =>
    cases ops with
    | nil => simp at h
    | cons op ops =>
      have hrest : xs.length ≤ ops.length := by simpa using h
      rw [foldFrontAt?, foldFront]
      simp only [List.getElem?_cons_zero, Option.bind_eq_bind, Option.bind_some, List.tail_cons]
      cases foldedPair? l op first x with
      | none => rfl
      | some v => exact ih hrest

theorem foldLiteralsAt?_eq (h : xs.length ≤ ops.length + 1) :
    foldLiteralsAt? l xs ops = some (foldLiterals l xs ops) := by
  cases xs with
  | nil => rfl
  | cons x xs => exact foldFrontAt?_eq (by simpa using h)

/-- What is read of a chain of simple operands is there exactly if it has enough operators. -/
theorem simplifyChainAt?_eq (l : Level) (ops : List String) (hall : ∀ x ∈ xs, x.Settled) :
    simplifyChainAt? l xs ops =
      if xs.length ≤ ops.length + 1 then some (simplifyChain l xs ops) else none := by
  rw [simplifyChainAt?, flattenAt?_eq]
  split
  · next hlength =>
    have hflat := (show Stocked (xs, ops) from ⟨hlength, hall⟩).flatten (l := l)
    simp only [Option.bind_eq_bind, Option.bind_some, foldLiteralsAt?_eq hflat.1, simplifyChain]
    generalize flatten l xs ops = flat
    obtain ⟨ys, os⟩ := flat
    dsimp only
    generalize foldLiterals l ys os = folded
    obtain ⟨zs, ps⟩ := folded
    rcases zs with _ | ⟨z, _ | ⟨z', zs⟩⟩ <;> rfl
  · rfl

/-- Parentheses around a leaf have been taken off before they are looked at. -/
theorem Settled.simplifyLocal?_ofNode (h : n.Settled) :
    simplifyLocal? (.operand (.ofNode n)) = some (.operand (.ofNode n)) := by
  have hwrapped := h.wrapped.ofNode
  generalize Operand.ofNode n = o at *
  cases o with
  | paren e => rw [simplifyLocal?, ((wrapped_iff.1 hwrapped).1 e rfl).ofNode_eq]
  | _ => rfl

theorem descends_simplifier : simplifier.Descends fun _ => some () :=
  ⟨fun _ _ => rfl, fun _ => rfl⟩

theorem mapM_simplifyAt? (h : ∀ x ∈ xs, x.simplifyAt? = x.simplify?) :
    xs.mapM simplifier.visit = if hasOperatorsList xs then some (simplifyList xs) else none := by
  induction xs with
  | nil => rfl
  | cons x xs ih =>
    obtain ⟨hx, hxs⟩ := List.forall_mem_cons.1 h
    rw [simplifyAt?, simplify?] at hx
    rw [List.mapM_cons, hx, ih hxs, hasOperatorsList, simplifyList]
    cases x.hasOperators <;> cases hasOperatorsList xs <;> rfl

theorem mapM_simplifyAt?_bindings {bs : List (Binding Node)}
    (h : ∀ b ∈ bs, (Node.binding b).simplifyAt? = (Node.binding b).simplify?) :
    (bs.mapM fun b => (fun n => (Visitor.asBinding? n).getD b) <$> simplifier.visit (.binding b)) =
      if hasOperatorsBindings bs then some (simplifyBindings bs) else none := by
  induction bs with
  | nil => rfl
  | cons b bs ih =>
    obtain ⟨hb, hbs⟩ := List.forall_mem_cons.1 h
    rw [simplifyAt?, simplify?, hasOperators] at hb
    rw [List.mapM_cons, hb, ih hbs, hasOperatorsBindings, simplifyBindings]
    cases b.value.hasOperators <;> cases hasOperatorsBindings bs <;> rfl

theorem mapM_simplifyAt?_inputs (ins : List Input) :
    (ins.mapM fun i => (fun n => (Visitor.asInput? n).getD i) <$> simplifier.visit (.input i)) =
      some ins := by
  induction ins with
  | nil => rfl
  | cons i ins ih =>
    rw [List.mapM_cons, ih]
    rfl

/-- Simplification fails exactly if an operator is missing. -/
theorem simplifyAt?_eq (n : Node) : n.simplifyAt? = n.simplify? := by
  induction n using forall_of_children with
  | h n ih =>
    have hvisit (c : Node) (hc : c ∈ n.children) : simplifier.visit c =
        if c.hasOperators then some c.simplify else none := ih c hc
    rw [simplifyAt?, simplify?]
    cases n with
    | program p =>
      rw [descends_simplifier.visit_program, mapM_simplifyAt?_inputs,
        hvisit (.output p.output) (by simp [children])]
      have hprogram : (program p).hasOperators = (output p.output).hasOperators := by
        rw [hasOperators, hasOperators]
      rw [hprogram]
      cases (output p.output).hasOperators <;> rfl
    | output o =>
      rw [descends_simplifier.visit_output, hvisit (.ref o.target) (by simp [children]),
        mapM_simplifyAt?_bindings fun b hb => ih (.binding b) (by simp [children, hb]),
        hvisit o.value (by simp [children]), hasOperators]
      cases hasOperatorsBindings o.bindings <;> cases o.value.hasOperators <;> rfl
    | binding b =>
      rw [descends_simplifier.visit_binding, hvisit b.value (by simp [children]), hasOperators]
      cases b.value.hasOperators <;> rfl
    | chain l xs ops =>
      have hlist := mapM_simplifyAt? (show ∀ x ∈ xs, x.simplifyAt? = x.simplify? from ih)
      rw [descends_simplifier.visit_chain, hlist, hasOperators, simplify, simplifyList_eq_map]
      -- the operands are simple by now: only the chain itself can lack an operator
      cases hall : hasOperatorsList xs with
      | false => simp
      | true =>
        rw [hasOperatorsList_eq_all, List.all_eq_true] at hall
        have hsettled : ∀ y ∈ xs.map simplify, y.Settled :=
          List.forall_mem_map.2 fun x hx => settled_simplify (hall x hx)
        have hchain := simplifyChainAt?_eq l ops hsettled
        rw [List.length_map] at hchain
        simpa [simplifier, simplifyLocal?] using hchain
    | unary ops e =>
      rw [descends_simplifier.visit_unary, hvisit e (by simp [children]), hasOperators]
      cases e.hasOperators <;> rfl
    | operand o =>
      rw [descends_simplifier.visit_operand, hvisit o.toNode (by simp [children]),
        hasOperators_operand, simplify_operand]
      cases h : o.toNode.hasOperators with
      | false => rfl
      | true => exact (settled_simplify h).simplifyLocal?_ofNode
    | call f xs =>
      have hlist := mapM_simplifyAt? (show ∀ x ∈ xs, x.simplifyAt? = x.simplify? from ih)
      rw [descends_simplifier.visit_call, hlist, hasOperators]
      cases hasOperatorsList xs <;> rfl
    | input | ref | var | num => rfl

end Node

end GridSweep
