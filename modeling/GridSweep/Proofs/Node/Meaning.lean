import GridSweep.Proofs.Node.Proper
import GridSweep.Proofs.Number.Value
import Mathlib.Algebra.Group.Basic
import Mathlib.Tactic.Abel

/-!
# What expressions mean

An interpretation says what operators, functions and literals mean, and an assignment gives values
to references and variables. A chain is evaluated from left to right and prefix operators from right
to left.

Simplification keeps the value of every tree that lowering makes. It relies on laws: sums and signs
are those of a commutative group, a plus sign does nothing, and some operators are associative. All
other operators and all functions are arbitrary. Folding literals keeps the value where it is exact,
so this is asked of the folds that take place, which `folds` lists; no meaning makes rounded
arithmetic exact everywhere.
-/

namespace GridSweep

/-- A meaning of operators, functions and literals. -/
structure Interpretation (V : Type) [AddCommGroup V] where
  binary : String → V → V → V
  unary : String → V → V
  call : String → List V → V
  literal : Binary64 → V
  binary_plus : ∀ a b, binary "+" a b = a + b
  binary_minus : ∀ a b, binary "-" a b = a - b
  unary_plus : ∀ a, unary "+" a = a
  unary_minus : ∀ a, unary "-" a = -a
  binary_assoc : ∀ op ∈ ["*", "||", "&&", "|", "^", "&"], ∀ a b c,
    binary op (binary op a b) c = binary op a (binary op b c)
  literal_neg : ∀ v, literal v.neg = -literal v

/-- Values of references and variables. -/
structure Assignment (V : Type) where
  ref : Ref → V
  var : String → V

namespace Interpretation

variable {V : Type} [AddCommGroup V]

/-- The value of a chain from those of its operands. -/
def chainValue (I : Interpretation V) (ops : List String) : List V → V
  | [] => 0
  | v :: vs => (ops.zip vs).foldl (fun a k => I.binary k.1 a k.2) v

mutual

/-- The value of an expression. Statements have none; zero stands in for it. -/
def value (I : Interpretation V) (s : Assignment V) : Node → V
  | .chain _ xs ops => I.chainValue ops (I.values s xs)
  | .unary ops e => ops.foldr I.unary (I.value s e)
  | .operand (.call f xs) => I.call f (I.values s xs)
  | .operand (.ref r) => s.ref r
  | .operand (.num v) => I.literal v
  | .operand (.paren e) => I.value s e
  | .operand (.var x) => s.var x
  | .call f xs => I.call f (I.values s xs)
  | .ref r => s.ref r
  | .num v => I.literal v
  | .var x => s.var x
  | .program _ => 0
  | .input _ => 0
  | .output _ => 0
  | .binding _ => 0

def values (I : Interpretation V) (s : Assignment V) : List Node → List V
  | [] => []
  | x :: xs => I.value s x :: I.values s xs

end

end Interpretation

/-- An operation on literals that is carried out. -/
structure LiteralFold where
  operator : String
  left : Binary64
  right : Binary64
  result : Binary64
deriving DecidableEq, Repr

namespace Node

/-- The folds at the front of a chain. -/
def frontFolds (level : Level) (first : Node) : List Node → List String → List LiteralFold
  | x :: xs, op :: ops =>
    match first.number?, x.number? with
    | some a, some b =>
      match applyOperator? level op a b with
      | some v => ⟨op, a, b, v⟩ :: frontFolds level (.operand (.num v)) xs ops
      | none => []
    | _, _ => []
  | _, _ => []

mutual

/-- The folds that simplifying an expression takes. -/
def folds : Node → List LiteralFold
  | .chain l xs ops =>
    foldsList xs ++
      match flatten l (simplifyList xs) ops with
      | ([], _) => []
      | (y :: ys, os) => frontFolds l y ys os
  | .unary _ e => folds e
  | .operand (.call _ xs) => foldsList xs
  | .operand (.paren e) => folds e
  | .call _ xs => foldsList xs
  | _ => []

def foldsList : List Node → List LiteralFold
  | [] => []
  | x :: xs => folds x ++ foldsList xs

end

end Node

namespace Interpretation

open Node hiding beq_iff_eq

variable {V : Type} [AddCommGroup V] {I : Interpretation V} {s : Assignment V}
  {ref : Ref → Prop} {var : String → Prop} {l : Level} {n x y first : Node} {op : String}
  {ops os : List String} {k : Link} {links : List Link}

/-- A fold gives the literal whose meaning is that of the operation. -/
def Exact (I : Interpretation V) (f : LiteralFold) : Prop :=
  I.literal f.result = I.binary f.operator (I.literal f.left) (I.literal f.right)

theorem values_eq_map (xs : List Node) : I.values s xs = xs.map (I.value s) := by
  induction xs with
  | nil => rfl
  | cons x xs ih => rw [values, ih, List.map_cons]

/-- The value of links behind a value. -/
def linked (I : Interpretation V) (s : Assignment V) (a : V) (links : List Link) : V :=
  links.foldl (fun a k => I.binary k.1 a (I.value s k.2)) a

@[simp] theorem linked_nil (a : V) : I.linked s a [] = a := rfl

@[simp] theorem linked_cons (a : V) (k : Link) (links : List Link) :
    I.linked s a (k :: links) = I.linked s (I.binary k.1 a (I.value s k.2)) links := rfl

theorem linked_append (a : V) (links links' : List Link) :
    I.linked s a (links ++ links') = I.linked s (I.linked s a links) links' :=
  List.foldl_append

/-- Operands count by their values. -/
theorem linked_map {f : Link → Node} (a : V)
    (h : ∀ k ∈ links, I.value s (f k) = I.value s k.2) :
    I.linked s a (links.map fun k => (k.1, f k)) = I.linked s a links := by
  unfold linked
  rw [List.foldl_map]
  exact List.foldl_ext _ _ _ fun a k hk => by rw [h k hk]

theorem value_chain (first : Node) (links : List Link) :
    I.value s (.chain l (first :: links.map (·.2)) (links.map (·.1))) =
      I.linked s (I.value s first) links := by
  rw [value, values, chainValue, values_eq_map, List.map_map, List.zip_map', List.foldl_map]
  rfl

/-! ## Splicing -/

/-- A level whose chains are regrouped freely has one operator, and that one is associative. -/
theorem accepts_of_isAssociative (hl : l.isAssociative = true) (hop : l.accepts op = true) :
    op ∈ ["*", "||", "&&", "|", "^", "&"] ∧ ∀ op', l.accepts op' = true → op' = op := by
  have hone : ∃ o, l.operators = [o] ∧ o.text ∈ ["*", "||", "&&", "|", "^", "&"] := by
    cases l <;> simp only [Level.isAssociative, Bool.false_eq_true] at hl
    all_goals exact ⟨_, rfl, by decide⟩
  obtain ⟨o, ho, hmem⟩ := hone
  simp only [Level.accepts_iff, ho, List.mem_singleton, exists_eq_left] at hop ⊢
  exact ⟨hop ▸ hmem, fun op' h => h.symm.trans hop⟩

theorem accepts_sum : Level.sum.accepts op = true ↔ op = "+" ∨ op = "-" := by
  constructor
  · intro h
    obtain ⟨o, ho, rfl⟩ := Level.accepts_iff.1 h
    simp only [Level.operators, List.mem_cons, List.not_mem_nil, or_false] at ho
    rcases ho with rfl | rfl
    · exact .inl rfl
    · exact .inr rfl
  · rintro (rfl | rfl) <;> rfl

/-- Links with one associative operator can be done before what stands in front of them. -/
theorem linked_assoc (hop : op ∈ ["*", "||", "&&", "|", "^", "&"]) (a b : V)
    (h : ∀ k ∈ links, k.1 = op) :
    I.linked s (I.binary op a b) links = I.binary op a (I.linked s b links) := by
  induction links generalizing b with
  | nil => rfl
  | cons k links ih =>
    have hk : k.1 = op := h k List.mem_cons_self
    rw [linked_cons, linked_cons, hk, I.binary_assoc op hop]
    exact ih _ fun j hj => h j (List.mem_cons_of_mem _ hj)

/-- A sum can be added term by term. -/
theorem linked_add (a b : V) (h : ∀ k ∈ links, Level.sum.accepts k.1 = true) :
    I.linked s (a + b) links = a + I.linked s b links := by
  induction links generalizing b with
  | nil => rfl
  | cons k links ih =>
    have hrest := fun j hj => h j (List.mem_cons_of_mem k hj)
    rw [linked_cons, linked_cons]
    rcases accepts_sum.1 (h k List.mem_cons_self) with hk | hk
    · rw [hk, I.binary_plus, I.binary_plus, add_assoc]
      exact ih _ hrest
    · rw [hk, I.binary_minus, I.binary_minus, add_sub_assoc]
      exact ih _ hrest

/-- A sum can be subtracted term by term, with all signs turned around. -/
theorem linked_sub (a b : V) (h : ∀ k ∈ links, Level.sum.accepts k.1 = true) :
    I.linked s (a - b) (links.map fun k => (flipSign k.1, k.2)) = a - I.linked s b links := by
  induction links generalizing b with
  | nil => rfl
  | cons k links ih =>
    have hrest := fun j hj => h j (List.mem_cons_of_mem k hj)
    rw [List.map_cons, linked_cons, linked_cons]
    rcases accepts_sum.1 (h k List.mem_cons_self) with hk | hk
    · rw [hk, show flipSign "+" = "-" from rfl, I.binary_minus, I.binary_plus, sub_sub]
      exact ih _ hrest
    · rw [hk, show flipSign "-" = "+" from rfl, I.binary_plus, I.binary_minus,
        show a - b + I.value s k.2 = a - (b - I.value s k.2) by abel]
      exact ih _ hrest

/-- Where a chain is spliced in, the value stays the same. -/
theorem linked_spliced (hop : l.accepts op = true) (hlinks : ∀ k ∈ links, l.accepts k.1 = true)
    (h : spliced? l (some op) (links.map (·.1)) = some os) (a b : V) :
    I.linked s (I.binary op a b) (os.zip (links.map (·.2))) =
      I.binary op a (I.linked s b links) := by
  unfold spliced? at h
  dsimp only at h
  split at h
  · next hassoc =>
    obtain ⟨hmem, huniq⟩ := accepts_of_isAssociative hassoc hop
    cases h
    rw [zip_links]
    exact linked_assoc hmem a b fun k hk => huniq _ (hlinks k hk)
  split at h
  · next hplus =>
    obtain ⟨rfl, rfl⟩ := hplus
    cases h
    rw [zip_links, I.binary_plus, I.binary_plus]
    exact linked_add a b hlinks
  split at h
  · next hminus =>
    obtain ⟨rfl, rfl⟩ := hminus
    cases h
    rw [List.map_map, List.zip_map', I.binary_minus, I.binary_minus]
    exact linked_sub a b hlinks
  split at h
  · next hstar =>
    obtain ⟨-, rfl, hall⟩ := hstar
    cases h
    rw [zip_links]
    exact linked_assoc (by decide) a b (by simpa using hall)
  · cases h

theorem value_nested {xs : List Node} (h : nestedChain? l x = some (xs, ops)) :
    I.value s x = I.value s (.chain l xs ops) := by
  rcases nestedChain?_eq_some.1 h with rfl | rfl <;> rfl

theorem linked_front (h : x.Proper ref var) :
    I.linked s (I.value s (front l x).1) (front l x).2 = I.value s x := by
  unfold front
  cases hx : nestedChain? l x with
  | none => rfl
  | some nested =>
    obtain ⟨y, links, hxs, hops, -⟩ := h.nested hx
    obtain ⟨xs, ops⟩ := nested
    dsimp only at hxs hops
    subst hxs hops
    rw [value_nested hx, value_chain]
    simp only [zip_links]

theorem linked_spread (hop : l.accepts k.1 = true) (h : k.2.Proper ref var) (a : V) :
    I.linked s a (spread l k) = I.binary k.1 a (I.value s k.2) := by
  unfold spread
  cases hx : nestedChain? l k.2 with
  | none => rfl
  | some nested =>
    obtain ⟨y, links, hxs, hops, -, haccepts, -⟩ := h.nested hx
    obtain ⟨xs, ops⟩ := nested
    dsimp only at hxs hops
    subst hxs hops
    rw [value_nested hx, value_chain]
    cases hos : spliced? l (some k.1) (links.map (·.1)) with
    | none =>
      simp only [hos, linked_cons, linked_nil, value_nested hx, value_chain]
    | some os =>
      simp only [hos, linked_cons]
      exact linked_spliced hop haccepts hos a _

theorem linked_flatMap_spread (hops : ∀ k ∈ links, l.accepts k.1 = true)
    (h : ∀ k ∈ links, k.2.Proper ref var) (a : V) :
    I.linked s a (links.flatMap (spread l)) = I.linked s a links := by
  induction links generalizing a with
  | nil => rfl
  | cons k links ih =>
    rw [List.flatMap_cons, linked_append, linked_cons,
      linked_spread (hops k List.mem_cons_self) (h k List.mem_cons_self)]
    exact ih (fun j hj => hops j (List.mem_cons_of_mem _ hj))
      (fun j hj => h j (List.mem_cons_of_mem _ hj)) _

/-- Splicing nested chains keeps the value of a chain. -/
theorem linked_flatLinks (hfirst : first.Proper ref var)
    (hops : ∀ k ∈ links, l.accepts k.1 = true) (h : ∀ k ∈ links, k.2.Proper ref var) :
    I.linked s (I.value s (front l first).1) (flatLinks l first links) =
      I.linked s (I.value s first) links := by
  rw [flatLinks, linked_append, linked_front hfirst, linked_flatMap_spread hops h]

/-! ## Folding -/

theorem value_of_number? {v : Binary64} (h : n.number? = some v) : I.value s n = I.literal v := by
  unfold number? at h
  split at h <;> cases h <;> rfl

/-- Folding keeps the value of a chain, if every fold is exact. -/
theorem linked_foldLinks (first : Node) (links : List Link)
    (h : ∀ f ∈ frontFolds l first (links.map (·.2)) (links.map (·.1)), I.Exact f) :
    I.linked s (I.value s (foldLinks l first links).1) (foldLinks l first links).2 =
      I.linked s (I.value s first) links := by
  induction links generalizing first with
  | nil => rfl
  | cons k links ih =>
    rw [foldLinks]
    cases hpair : foldedPair? l k.1 first k.2 with
    | none => rfl
    | some w =>
      obtain ⟨a, b, v, ha, hb, hv, rfl⟩ := foldedPair?_eq_some.1 hpair
      simp only [List.map_cons, frontFolds, ha, hb, hv, List.mem_cons, forall_eq_or_imp] at h
      have hexact : I.literal v = I.binary k.1 (I.value s first) (I.value s k.2) := by
        rw [value_of_number? ha, value_of_number? hb]
        exact h.1
      rw [linked_cons, ← hexact]
      exact ih _ h.2

/-! ## Signs -/

/-- Removing signs keeps the value; operators are given innermost first. -/
theorem foldl_reduceSigns (ops : List String) (e : Node) :
    (reduceSigns ops e).1.foldl (fun a op => I.unary op a) (I.value s (reduceSigns ops e).2) =
      ops.foldl (fun a op => I.unary op a) (I.value s e) := by
  fun_induction reduceSigns ops e with
  | case1 e => rfl
  | case2 e rest ih =>
    rw [ih, List.foldl_cons, List.foldl_cons, I.unary_minus, I.unary_minus, neg_neg]
  | case3 e rest ih => rw [ih, List.foldl_cons, I.unary_plus]
  | case4 e rest _ v hv ih =>
    rw [ih, List.foldl_cons, I.unary_minus, value_of_number? hv, value, I.literal_neg]
  | case5 e rest _ _ => rfl
  | case6 e op rest _ _ _ => rfl

theorem value_simplifyUnary (h : x.Proper ref var) :
    I.value s (simplifyUnary ops x) = I.value s (.unary ops x) := by
  have hsigns := foldl_reduceSigns (I := I) (s := s) ops.reverse x
  have hproper : (reduceSigns ops.reverse x).2.Proper ref var := by
    rcases reduceSigns_operand ops.reverse x with heq | ⟨v, heq⟩ <;> rw [heq]
    · exact h
    · exact .num v
  rw [value, ← List.foldl_reverse, ← hsigns]
  unfold simplifyUnary
  split
  · next e heq =>
    rw [heq] at hproper
    rw [heq, hproper.asOperand]
    rfl
  · next os e _ heq =>
    rw [heq, value, ← List.foldl_reverse, List.reverse_reverse]

/-! ## Simplification -/

theorem value_ofNode (n : Node) : I.value s (.operand (.ofNode n)) = I.value s n := by
  cases n <;> rfl

theorem mem_foldsList {f : LiteralFold} {xs : List Node} :
    f ∈ foldsList xs ↔ ∃ x ∈ xs, f ∈ x.folds := by
  induction xs with
  | nil => simp [foldsList]
  | cons x xs ih => simp [foldsList, ih]

theorem value_simplifyChain (hfirst : first.Proper ref var)
    (hops : ∀ k ∈ links, l.accepts k.1 = true) (h : ∀ k ∈ links, k.2.Proper ref var)
    (hexact : ∀ f ∈ frontFolds l (front l first).1 ((flatLinks l first links).map (·.2))
      ((flatLinks l first links).map (·.1)), I.Exact f) :
    I.value s (simplifyChain l (first :: links.map (·.2)) (links.map (·.1))) =
      I.linked s (I.value s first) links := by
  rw [simplifyChain_links hfirst h, ← linked_flatLinks hfirst hops h, ← linked_foldLinks _ _ hexact]
  unfold joined
  split
  · next hnil =>
    have hproper : (foldLinks l (front l first).1 (flatLinks l first links)).1.Proper ref var := by
      rcases foldLinks_first (l := l) (front l first).1 (flatLinks l first links) with
        heq | ⟨v, heq⟩ <;> rw [heq]
      · exact hfirst.front.1
      · exact .num v
    rw [hnil, hproper.asOperand, linked_nil]
  · rw [value_chain]

/-- Simplification keeps the value of a proper tree, if every fold is exact. -/
theorem value_simplify (h : n.Proper ref var) (hexact : ∀ f ∈ n.folds, I.Exact f) :
    I.value s n.simplify = I.value s n := by
  induction h with
  | @chain l first links hfirst hops hlinks ihfirst ihlinks =>
    -- the operands are simplified first, and the folds at the front are those of the result
    have hsnd : simplifyList (links.map (·.2)) = (links.map Link.simplify).map (·.2) := by
      simp [simplifyList_eq_map, Link.simplify, Function.comp_def]
    have hfst : links.map (·.1) = (links.map Link.simplify).map (·.1) := by
      simp [Link.simplify, Function.comp_def]
    have hproper : ∀ k ∈ links.map Link.simplify, k.2.Proper ref var :=
      List.forall_mem_map.2 fun k hk => (hlinks k hk).simplify
    have haccepts : ∀ k ∈ links.map Link.simplify, l.accepts k.1 = true :=
      List.forall_mem_map.2 hops
    simp only [folds, foldsList, simplifyList, hsnd, hfst,
      flatten_links hfirst.simplify hproper, List.mem_append] at hexact
    have hold : ∀ j ∈ links, I.value s j.2.simplify = I.value s j.2 := fun j hj =>
      ihlinks j hj fun f hf => hexact f (.inl (.inr (mem_foldsList.2
        ⟨_, List.mem_map_of_mem hj, hf⟩)))
    rw [simplify_links, value_simplifyChain hfirst.simplify haccepts hproper
      fun f hf => hexact f (.inr hf), value_chain, ihfirst fun f hf => hexact f (.inl (.inl hf))]
    exact linked_map _ hold
  | unary _ he ih =>
    rw [simplify, value_simplifyUnary he.simplify, value, value, ih hexact]
  | @call f xs _ _ _ ih =>
    have hargs : (xs.map simplify).map (I.value s) = xs.map (I.value s) := by
      rw [List.map_map]
      exact List.map_congr_left fun x hx =>
        ih x hx fun f hf => hexact f (mem_foldsList.2 ⟨x, hx, hf⟩)
    rw [simplify, value, value, values_eq_map, values_eq_map, simplifyList_eq_map, hargs]
  | paren _ ih => rw [simplify, value_ofNode, value, ih hexact]
  | _ => rfl

/-- Simplifying what lowering makes keeps its value, and no operator is missing for it. -/
theorem simplify_keeps_value {e : Surface.Expr} (h : e.lower = .ok n) (I : Interpretation V)
    (hexact : ∀ f ∈ n.folds, I.Exact f) (s : Assignment V) :
    n.simplify? = some n.simplify ∧ I.value s n.simplify = I.value s n :=
  have hproper := Surface.Expr.proper_of_lower h
  ⟨hproper.simplify?, value_simplify hproper hexact⟩

/-- Rational arithmetic. Literals are read as the numbers they stand for, and what two zeros add up
to as zero; operators on truth values and bits give zero. -/
def arithmetic : Interpretation ℚ where
  binary op a b :=
    match op with
    | "+" => a + b
    | "-" => a - b
    | "*" => a * b
    | "/" => a / b
    | _ => 0
  unary op a :=
    match op with
    | "+" => a
    | "-" => -a
    | _ => 0
  call _ args := |args.headD 0|
  literal v :=
    let zero := (⟨0⟩ : Binary64).add ⟨0⟩
    if v = zero ∨ v.neg = zero then 0 else v.toRat
  binary_plus _ _ := rfl
  binary_minus _ _ := rfl
  unary_plus _ := rfl
  unary_minus _ := rfl
  binary_assoc op hop a b c := by
    simp only [List.mem_cons, List.not_mem_nil, or_false] at hop
    rcases hop with rfl | rfl | rfl | rfl | rfl | rfl <;> first | exact mul_assoc a b c | rfl
  literal_neg v := by
    simp only [Binary64.neg_neg, or_comm (a := v.neg = _), Binary64.toRat_neg]
    split <;> simp

/-- `0 + 0 + a - (b(0, 1) - -2)`. -/
def zerosThenNested : Surface.Expr :=
  .binary "AddSub"
    [.operand (.num ⟨0⟩), .operand (.num ⟨0⟩), .operand (.var "a"),
      .operand (.paren (.binary "AddSub"
        [.operand (.ref ⟨"b", [0, 1]⟩), .unary ["-"] (.operand (.num (.ofNat 2)))] ["-"]))]
    ["+", "+", "-"]

/-- The zeros are folded, the sign goes into the literal, and the inner sum is spliced in. -/
theorem zeros_then_nested_keeps_value :
    ∃ n, zerosThenNested.lower = .ok n ∧
      n.folds = [⟨"+", ⟨0⟩, ⟨0⟩, (⟨0⟩ : Binary64).add ⟨0⟩⟩] ∧
      n.simplify? = some (.chain .sum
        [.operand (.num ((⟨0⟩ : Binary64).add ⟨0⟩)), .operand (.var "a"),
          .operand (.ref ⟨"b", [0, 1]⟩), .operand (.num (Binary64.ofNat 2).neg)]
        ["+", "-", "+"]) ∧
      ∀ s, arithmetic.value s n.simplify = arithmetic.value s n := by
  have hzero : arithmetic.literal ⟨0⟩ = 0 := by
    have hsignificand : (⟨0⟩ : Binary64).significand = 0 := by decide
    simp [arithmetic, Binary64.toRat, Binary64.absValue, hsignificand]
  have hexact : arithmetic.Exact ⟨"+", ⟨0⟩, ⟨0⟩, (⟨0⟩ : Binary64).add ⟨0⟩⟩ := by
    rw [Exact, hzero]
    simp [arithmetic]
  have hkeeps := simplify_keeps_value (e := zerosThenNested) rfl arithmetic
    fun f hf => List.mem_singleton.1 hf ▸ hexact
  exact ⟨_, rfl, rfl, (hkeeps ⟨fun _ => 0, fun _ => 0⟩).1, fun s => (hkeeps s).2⟩

end Interpretation

end GridSweep
