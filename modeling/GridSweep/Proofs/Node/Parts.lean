import GridSweep.Proofs.Node.Proper

/-!
# Parts of a tree

`children` are the nodes right below a node and `parts` all nodes of a tree, a node before its
children and children from left to right. References and variables are collected in this order, each
place once (`refs_eq`, `vars_eq`).

Simplification moves and folds nodes, but keeps the references and variables and their order
(`gather_simplify`). Renaming turns every reference into a variable in its place
(`gather_mapRefs`).
-/

namespace GridSweep.Node

variable {c n x first : Node} {l : Level} {k : Link} {links : List Link}

/-- The nodes right below a node, in the order in which they are written. -/
def children : Node → List Node
  | .program p => p.inputs.map .input ++ [.output p.output]
  | .output o => .ref o.target :: (o.bindings.map .binding ++ [o.value])
  | .binding b => [b.value]
  | .chain _ xs _ => xs
  | .unary _ e => [e]
  | .operand o => [o.toNode]
  | .call _ xs => xs
  | .input _ | .ref _ | .var _ | .num _ => []

theorem sizeOf_child (h : c ∈ n.children) : sizeOf c < sizeOf n := by
  cases n with
  | program p =>
    obtain ⟨i, k, m, ins, o⟩ := p
    simp only [children, List.mem_append, List.mem_map, List.mem_singleton] at h
    rcases h with ⟨i, hi, rfl⟩ | rfl
    · have := List.sizeOf_lt_of_mem hi
      simp only [program.sizeOf_spec, input.sizeOf_spec, Program.mk.sizeOf_spec]
      omega
    · simp only [program.sizeOf_spec, output.sizeOf_spec, Program.mk.sizeOf_spec]
      omega
  | output o =>
    obtain ⟨t, bs, e⟩ := o
    simp only [children, List.mem_cons, List.mem_append, List.mem_map, List.not_mem_nil,
      or_false] at h
    simp only [output.sizeOf_spec, Output.mk.sizeOf_spec]
    rcases h with rfl | ⟨b, hb, rfl⟩ | rfl
    · rw [ref.sizeOf_spec]
      omega
    · have := List.sizeOf_lt_of_mem hb
      rw [binding.sizeOf_spec]
      omega
    · omega
  | binding b =>
    obtain rfl := List.mem_singleton.1 h
    obtain ⟨x, e⟩ := b
    simp only [binding.sizeOf_spec, Binding.mk.sizeOf_spec]
    omega
  | chain l xs ops =>
    have := List.sizeOf_lt_of_mem (show c ∈ xs from h)
    rw [chain.sizeOf_spec]
    omega
  | unary ops e =>
    obtain rfl := List.mem_singleton.1 h
    rw [unary.sizeOf_spec]
    omega
  | operand o =>
    obtain rfl := List.mem_singleton.1 h
    cases o with
    | paren e =>
      simp only [Operand.toNode, operand.sizeOf_spec, Operand.paren.sizeOf_spec]
      omega
    | _ => simp [Operand.toNode]
  | call f xs =>
    have := List.sizeOf_lt_of_mem (show c ∈ xs from h)
    rw [call.sizeOf_spec]
    omega
  | input | ref | var | num => cases h

/-- All nodes of a tree. -/
def parts (n : Node) : List Node := n :: n.children.attach.flatMap fun c => c.1.parts
termination_by sizeOf n
decreasing_by exact sizeOf_child c.2

theorem parts_eq (n : Node) : n.parts = n :: n.children.flatMap parts := by
  rw [parts, List.flatMap_subtype (g := parts) fun _ _ => rfl, List.unattach_attach]

/-- What holds of a node if it holds of its children holds of every tree. -/
theorem forall_of_children {P : Node → Prop} (h : ∀ n, (∀ c ∈ n.children, P c) → P n) (n : Node) :
    P n :=
  h n fun c _ => forall_of_children h c
termination_by sizeOf n
decreasing_by exact sizeOf_child ‹_›

def ref? : Node → Option Ref
  | .ref r => some r
  | _ => none

def var? : Node → Option String
  | .var x => some x
  | _ => none

section

variable {α : Type} {leaf? : Node → Option α}

/-- What is picked from the parts of a tree. -/
def gather (leaf? : Node → Option α) (n : Node) : List α := n.parts.filterMap leaf?

theorem mem_gather {a : α} : a ∈ n.gather leaf? ↔ ∃ m ∈ n.parts, leaf? m = some a :=
  List.mem_filterMap

theorem gather_eq (n : Node) :
    n.gather leaf? = (leaf? n).toList ++ n.children.flatMap (gather leaf?) := by
  rw [gather, parts_eq, List.filterMap_cons, List.filterMap_flatMap]
  cases leaf? n <;> rfl

/-- A list that is made like `gather` step by step is what is gathered. -/
theorem eq_gather {g : Node → List α}
    (h : ∀ n, g n = (leaf? n).toList ++ n.children.flatMap g) (n : Node) :
    g n = n.gather leaf? := by
  induction n using forall_of_children with
  | h n ih => rw [h, gather_eq, List.flatMap_congr ih]

end

theorem refsBindings_eq (bs : List (Binding Node)) :
    refsBindings bs = (bs.map .binding).flatMap refs := by
  induction bs with
  | nil => rfl
  | cons b bs ih => rw [refsBindings, ih, List.map_cons, List.flatMap_cons, refs]

theorem varsBindings_eq (bs : List (Binding Node)) :
    varsBindings bs = (bs.map .binding).flatMap vars := by
  induction bs with
  | nil => rfl
  | cons b bs ih => rw [varsBindings, ih, List.map_cons, List.flatMap_cons, vars]

/-- The references of a tree, each place once and in order. -/
theorem refs_eq (n : Node) : n.refs = n.gather ref? := by
  refine eq_gather (fun n => ?_) n
  cases n with
  | program p => simp [refs, ref?, children, refsBindings_eq, List.flatMap_map]
  | output o => simp [refs, ref?, children, refsBindings_eq, List.flatMap_append]
  | operand o => cases o <;> simp [refs, ref?, children, Operand.toNode, refsList_eq]
  | _ => simp [refs, ref?, children, refsList_eq]

/-- The variables of a tree, each place once and in order. -/
theorem vars_eq (n : Node) : n.vars = n.gather var? := by
  refine eq_gather (fun n => ?_) n
  cases n with
  | program p => simp [vars, var?, children, varsBindings_eq, List.flatMap_map]
  | output o => simp [vars, var?, children, varsBindings_eq, List.flatMap_append]
  | operand o => cases o <;> simp [vars, var?, children, Operand.toNode, varsList_eq]
  | _ => simp [vars, var?, children, varsList_eq]

theorem ref?_eq_some {r : Ref} : n.ref? = some r ↔ n = .ref r := by
  cases n <;> simp [ref?]

theorem var?_eq_some {v : String} : n.var? = some v ↔ n = .var v := by
  cases n <;> simp [var?]

theorem mem_refs_iff {r : Ref} : r ∈ n.refs ↔ .ref r ∈ n.parts := by
  rw [refs_eq, mem_gather]
  simp [ref?_eq_some]

theorem mem_vars_iff {v : String} : v ∈ n.vars ↔ .var v ∈ n.parts := by
  rw [vars_eq, mem_gather]
  simp [var?_eq_some]

/-! ## Simplified trees -/

/-- Only bare references and variables are picked. -/
structure PicksLeaves {α : Type} (leaf? : Node → Option α) : Prop where
  chain : ∀ l xs ops, leaf? (.chain l xs ops) = none
  unary : ∀ ops e, leaf? (.unary ops e) = none
  operand : ∀ o, leaf? (.operand o) = none
  call : ∀ f xs, leaf? (.call f xs) = none
  num : ∀ v, leaf? (.num v) = none

theorem picksLeaves_ref? : PicksLeaves ref? where
  chain _ _ _ := rfl
  unary _ _ := rfl
  operand _ := rfl
  call _ _ := rfl
  num _ := rfl

theorem picksLeaves_var? : PicksLeaves var? where
  chain _ _ _ := rfl
  unary _ _ := rfl
  operand _ := rfl
  call _ _ := rfl
  num _ := rfl

namespace PicksLeaves

variable {α : Type} {leaf? : Node → Option α} (h : PicksLeaves leaf?) {ref : Ref → Prop}
  {var : String → Prop}

include h

theorem gather_chain (l : Level) (xs : List Node) (ops : List String) :
    gather leaf? (.chain l xs ops) = xs.flatMap (gather leaf?) := by
  rw [gather_eq, h.chain]
  rfl

theorem gather_unary (ops : List String) (e : Node) :
    gather leaf? (.unary ops e) = gather leaf? e := by
  rw [gather_eq, h.unary]
  simp [children]

theorem gather_operand (o : Operand Node) :
    gather leaf? (.operand o) = gather leaf? o.toNode := by
  rw [gather_eq, h.operand]
  simp [children]

theorem gather_call (f : String) (xs : List Node) :
    gather leaf? (.call f xs) = xs.flatMap (gather leaf?) := by
  rw [gather_eq, h.call]
  rfl

theorem gather_num (v : Binary64) : gather leaf? (.num v) = [] := by
  rw [gather_eq, h.num]
  rfl

theorem gather_links (first : Node) (links : List Link) :
    gather leaf? (.chain l (first :: links.map (·.2)) (links.map (·.1))) =
      gather leaf? first ++ links.flatMap fun k => gather leaf? k.2 := by
  rw [h.gather_chain, List.flatMap_cons, List.flatMap_map]

theorem gather_ofNode (n : Node) : gather leaf? (.operand (.ofNode n)) = gather leaf? n := by
  cases n with
  | operand o => rfl
  | _ => exact h.gather_operand _

theorem gather_asOperand (n : Node) : gather leaf? n.asOperand = gather leaf? n := by
  unfold asOperand
  split
  · rfl
  · rfl
  · rfl
  · exact h.gather_ofNode n

theorem gather_of_number? {v : Binary64} (hn : n.number? = some v) : gather leaf? n = [] := by
  unfold number? at hn
  split at hn
  · exact h.gather_num _
  · rw [h.gather_operand]
    exact h.gather_num _
  · cases hn

theorem gather_nested {xs : List Node} {ops : List String}
    (hx : nestedChain? l x = some (xs, ops)) :
    gather leaf? x = gather leaf? (.chain l xs ops) := by
  rcases nestedChain?_eq_some.1 hx with rfl | rfl
  · rfl
  · exact h.gather_operand _

theorem gather_front (hx : Proper ref var x) :
    (gather leaf? (front l x).1 ++ (front l x).2.flatMap fun k => gather leaf? k.2) =
      gather leaf? x := by
  unfold front
  cases hchain : nestedChain? l x with
  | none => simp
  | some nested =>
    obtain ⟨y, links, hxs, hops, -⟩ := hx.nested hchain
    obtain ⟨xs, ops⟩ := nested
    dsimp only at hxs hops
    subst hxs hops
    rw [h.gather_nested hchain, h.gather_links]
    simp only [zip_links]

theorem gather_spread (hk : Proper ref var k.2) :
    ((spread l k).flatMap fun k => gather leaf? k.2) = gather leaf? k.2 := by
  unfold spread
  cases hchain : nestedChain? l k.2 with
  | none => simp
  | some nested =>
    obtain ⟨y, links, hxs, hops, -⟩ := hk.nested hchain
    obtain ⟨xs, ops⟩ := nested
    dsimp only at hxs hops
    subst hxs hops
    cases hos : spliced? l (some k.1) (links.map (·.1)) with
    | none => simp [hos]
    | some os =>
      have hlength := length_of_spliced? hos
      rw [List.length_map] at hlength
      rw [h.gather_nested hchain, h.gather_links]
      simp only [hos, List.flatMap_cons]
      have hzip : (os.zip (links.map (·.2))).map (·.2) = links.map (·.2) :=
        List.map_snd_zip (by simp [hlength])
      rw [← List.flatMap_map (f := Prod.snd) (g := gather leaf?), hzip, List.flatMap_map]

theorem gather_foldLinks (first : Node) (links : List Link) :
    (gather leaf? (foldLinks l first links).1 ++
      (foldLinks l first links).2.flatMap fun k => gather leaf? k.2) =
      gather leaf? first ++ links.flatMap fun k => gather leaf? k.2 := by
  induction links generalizing first with
  | nil => rfl
  | cons k links ih =>
    rw [foldLinks]
    cases hpair : foldedPair? l k.1 first k.2 with
    | none => rfl
    | some w =>
      obtain ⟨a, b, v, ha, hb, -, rfl⟩ := foldedPair?_eq_some.1 hpair
      have hnum : gather leaf? (.operand (.num v)) = [] := h.gather_of_number? (v := v) rfl
      rw [ih, hnum, h.gather_of_number? ha, List.flatMap_cons, h.gather_of_number? hb]
      rfl

theorem gather_simplifyChain (hfirst : Proper ref var first)
    (hlinks : ∀ k ∈ links, Proper ref var k.2) :
    gather leaf? (simplifyChain l (first :: links.map (·.2)) (links.map (·.1))) =
      gather leaf? first ++ links.flatMap fun k => gather leaf? k.2 := by
  have hflat : (gather leaf? (front l first).1 ++
      (flatLinks l first links).flatMap fun k => gather leaf? k.2) =
      gather leaf? first ++ links.flatMap fun k => gather leaf? k.2 := by
    rw [flatLinks, List.flatMap_append, ← List.append_assoc, h.gather_front hfirst,
      List.flatMap_assoc, List.flatMap_congr fun k hk => h.gather_spread (hlinks k hk)]
  rw [simplifyChain_links hfirst hlinks, ← hflat, ← h.gather_foldLinks]
  unfold joined
  split
  · next hnil => rw [h.gather_asOperand, hnil, List.flatMap_nil, List.append_nil]
  · exact h.gather_links _ _

theorem gather_reduceSigns (ops : List String) (e : Node) :
    gather leaf? (reduceSigns ops e).2 = gather leaf? e := by
  fun_induction reduceSigns ops e with
  | case1 e => rfl
  | case2 e rest ih => exact ih
  | case3 e rest ih => exact ih
  | case4 e rest _ v hv ih =>
    rw [ih, h.gather_of_number? hv]
    exact h.gather_of_number? (v := v.neg) rfl
  | case5 e rest _ _ => rfl
  | case6 e op rest _ _ _ => rfl

theorem gather_simplifyUnary (ops : List String) (e : Node) :
    gather leaf? (simplifyUnary ops e) = gather leaf? e := by
  have hreduce := h.gather_reduceSigns ops.reverse e
  unfold simplifyUnary
  split
  · next heq => rw [h.gather_asOperand, ← hreduce, heq]
  · next heq => rw [h.gather_unary, ← hreduce, heq]

theorem gather_simplify (hn : Proper ref var n) : gather leaf? n.simplify = gather leaf? n := by
  induction hn with
  | @chain l first links hfirst hops hlinks ihfirst ihlinks =>
    have hproper : ∀ k ∈ links.map Link.simplify, Proper ref var k.2 :=
      List.forall_mem_map.2 fun k hk => (hlinks k hk).simplify
    rw [simplify_links, h.gather_simplifyChain hfirst.simplify hproper, h.gather_links, ihfirst,
      List.flatMap_map]
    exact congrArg _ (List.flatMap_congr ihlinks)
  | unary hops _ ih => rw [Node.simplify, h.gather_simplifyUnary, ih, h.gather_unary]
  | @call f xs hf hne _ ih =>
    rw [Node.simplify, simplifyList_eq_map, h.gather_operand, h.gather_operand, Operand.toNode,
      Operand.toNode, h.gather_call, h.gather_call, List.flatMap_map]
    exact List.flatMap_congr ih
  | ref => rfl
  | num => rfl
  | paren _ ih => rw [Node.simplify, h.gather_ofNode, ih, h.gather_operand]; rfl
  | var => rfl

end PicksLeaves

theorem Proper.refs_simplify {ref : Ref → Prop} {var : String → Prop} (h : Proper ref var n) :
    n.simplify.refs = n.refs := by
  rw [refs_eq, refs_eq, picksLeaves_ref?.gather_simplify h]

theorem Proper.vars_simplify {ref : Ref → Prop} {var : String → Prop} (h : Proper ref var n) :
    n.simplify.vars = n.vars := by
  rw [vars_eq, vars_eq, picksLeaves_var?.gather_simplify h]

/-! ## Renamed trees -/

/-- The variable that stands for a reference or a variable in a renamed tree. -/
def renamed? (f : Ref → String) : Node → Option String
  | .ref r => some (f r)
  | .var x => some x
  | _ => none

theorem picksLeaves_renamed? (f : Ref → String) : PicksLeaves (renamed? f) where
  chain _ _ _ := rfl
  unary _ _ := rfl
  operand _ := rfl
  call _ _ := rfl
  num _ := rfl

theorem mapRefsList_eq_map (f : Ref → String) (xs : List Node) :
    mapRefsList f xs = xs.map (mapRefs f) := by
  induction xs with
  | nil => rfl
  | cons x xs ih => rw [mapRefsList, ih, List.map_cons]

theorem mapRefsBindings_eq_map (f : Ref → String) (bs : List (Binding Node)) :
    mapRefsBindings f bs = bs.map fun b => ⟨b.name, b.value.mapRefs f⟩ := by
  induction bs with
  | nil => rfl
  | cons b bs ih => rw [mapRefsBindings, ih, List.map_cons]

/-- A tree is still proper when its references become variables. -/
theorem Proper.mapRefs {ref ref' : Ref → Prop} {var var' : String → Prop} {f : Ref → String}
    (h : Proper ref var n) (hvar : ∀ x, var x → var' x) (href : ∀ r, ref r → var' (f r)) :
    Proper ref' var' (n.mapRefs f) := by
  induction h with
  | @chain l first links _ hops _ ihfirst ihlinks =>
    have hlinks := @Proper.chain ref' var' l _ (links.map fun k => (k.1, k.2.mapRefs f)) ihfirst
      (List.forall_mem_map.2 hops) (List.forall_mem_map.2 ihlinks)
    rw [Node.mapRefs, mapRefsList_eq_map, List.map_cons, List.map_map]
    simpa [List.map_map, Function.comp_def] using hlinks
  | unary hops _ ih => exact .unary hops ih
  | call hf hne _ ih =>
    rw [Node.mapRefs, mapRefsList_eq_map]
    exact .call hf (by simpa using hne) (List.forall_mem_map.2 ih)
  | ref hr => exact .var (href _ hr)
  | num v => exact .num v
  | paren _ ih => exact ih.ofNode
  | var hx => exact .var (hvar _ hx)

theorem eq_mapRefs_of_renameRefs {n' : Node} {origin : List Int}
    (h : n.renameRefs origin = .ok n') : n' = n.mapRefs (tapOf origin) := by
  obtain ⟨_, -, h⟩ := bind_eq_ok.1 h
  exact (Except.ok.inj h).symm

/-- What is picked from a renamed tree is what is picked from the tree through the renaming. -/
theorem gather_mapRefs {α : Type} {leaf? : Node → Option α} {origin? : Node → Option α}
    {f : Ref → String} {ref : Ref → Prop} {var : String → Prop} (h : PicksLeaves leaf?)
    (horigin : PicksLeaves origin?) (href : ∀ r, origin? (.ref r) = leaf? (.var (f r)))
    (hvar : ∀ x, origin? (.var x) = leaf? (.var x)) (hn : Proper ref var n) :
    gather leaf? (n.mapRefs f) = gather origin? n := by
  induction hn with
  | chain _ _ _ ihfirst ihlinks =>
    rw [mapRefs, mapRefsList_eq_map, h.gather_chain, horigin.gather_links, List.map_cons,
      List.flatMap_cons, List.map_map, List.flatMap_map, ihfirst]
    exact congrArg _ (List.flatMap_congr ihlinks)
  | unary _ _ ih => rw [mapRefs, h.gather_unary, horigin.gather_unary, ih]
  | call _ _ _ ih =>
    rw [mapRefs, mapRefsList_eq_map, h.gather_operand, horigin.gather_operand, Operand.toNode,
      Operand.toNode, h.gather_call, horigin.gather_call, List.flatMap_map]
    exact List.flatMap_congr ih
  | ref =>
    change gather leaf? (.operand (.var _)) = _
    rw [h.gather_operand, horigin.gather_operand]
    simp only [Operand.toNode, gather_eq, children, href, List.flatMap_nil]
  | num =>
    change gather leaf? (.operand (.num _)) = _
    rw [h.gather_operand, horigin.gather_operand]
    simp only [Operand.toNode, h.gather_num, horigin.gather_num]
  | paren _ ih =>
    rw [mapRefs, h.gather_ofNode, ih, horigin.gather_operand]
    rfl
  | var =>
    change gather leaf? (.operand (.var _)) = _
    rw [h.gather_operand, horigin.gather_operand]
    simp only [Operand.toNode, gather_eq, children, hvar, List.flatMap_nil]

/-- A renamed tree has no references. -/
theorem Proper.refs_mapRefs {ref : Ref → Prop} {var : String → Prop} (h : Proper ref var n)
    (f : Ref → String) : (n.mapRefs f).refs = [] := by
  have hnone : PicksLeaves fun _ => (none : Option Ref) :=
    ⟨fun _ _ _ => rfl, fun _ _ => rfl, fun _ => rfl, fun _ _ => rfl, fun _ => rfl⟩
  rw [refs_eq, gather_mapRefs picksLeaves_ref? hnone (fun _ => rfl) (fun _ => rfl) h]
  exact List.filterMap_none ..

theorem Proper.vars_mapRefs {ref : Ref → Prop} {var : String → Prop} (h : Proper ref var n)
    (f : Ref → String) : (n.mapRefs f).vars = n.gather (renamed? f) := by
  rw [vars_eq]
  exact gather_mapRefs picksLeaves_var? (picksLeaves_renamed? f) (fun _ => rfl) (fun _ => rfl) h

/-- The variables of a renamed tree are those of the tree and the new names. -/
theorem Proper.mem_vars_mapRefs {ref : Ref → Prop} {var : String → Prop} (h : Proper ref var n)
    {f : Ref → String} {v : String} :
    v ∈ (n.mapRefs f).vars ↔ v ∈ n.vars ∨ ∃ r ∈ n.refs, f r = v := by
  have hrenamed (m : Node) :
      renamed? f m = some v ↔ m = .var v ∨ ∃ r, m = .ref r ∧ f r = v := by
    cases m <;> simp [renamed?]
  simp only [h.vars_mapRefs, mem_gather, hrenamed, mem_vars_iff, mem_refs_iff]
  constructor
  · rintro ⟨m, hm, rfl | ⟨r, rfl, hr⟩⟩
    · exact .inl hm
    · exact .inr ⟨r, hm, hr⟩
  · rintro (hv | ⟨r, hm, hr⟩)
    · exact ⟨_, hv, .inl rfl⟩
    · exact ⟨_, hm, .inr ⟨r, rfl, hr⟩⟩

end GridSweep.Node
