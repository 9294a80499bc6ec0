import GridSweep.Node.Lower
import GridSweep.Node.References
import GridSweep.Node.Simplify
import GridSweep.Proofs.Outcome

/-!
# Proper trees

Lowering lets only some trees through: a chain has an operand and then links, each an operator of
its level with an operand behind it; prefix operators are prefix operators; a call is to a known
function and has arguments. `Proper` says this of a whole tree, together with what is known of its
references and variables. Simplification keeps trees proper.

A chain is handled as its first operand and its links. `front` and `spread` say what an operand
becomes when nested chains are spliced in (`flatten_links`), and `foldFront_links` says what folding
leaves.
-/

namespace GridSweep

theorem Level.accepts_iff {l : Level} {op : String} :
    l.accepts op = true ↔ ∃ o ∈ l.operators, o.text = op := by
  simp [accepts, spellings_eq]

theorem Operator.isPrefixSpelling_iff {op : String} :
    isPrefixSpelling op = true ↔ ∃ o ∈ prefixes, o.text = op := by
  simp [isPrefixSpelling]

namespace Node

/-- An operator and the operand behind it. -/
abbrev Link := String × Node

/-- A tree as lowering makes it, with references and variables of the given kinds. -/
inductive Proper (ref : Ref → Prop) (var : String → Prop) : Node → Prop where
  | chain {l : Level} {first : Node} {links : List Link} : Proper ref var first →
    (∀ k ∈ links, l.accepts k.1 = true) → (∀ k ∈ links, Proper ref var k.2) →
    Proper ref var (.chain l (first :: links.map (·.2)) (links.map (·.1)))
  | unary {ops : List String} {e : Node} : (∀ op ∈ ops, Operator.isPrefixSpelling op = true) →
    Proper ref var e → Proper ref var (.unary ops e)
  | call {f : String} {xs : List Node} : f ∈ functionNames → xs ≠ [] →
    (∀ x ∈ xs, Proper ref var x) → Proper ref var (.operand (.call f xs))
  | ref {r : Ref} : ref r → Proper ref var (.operand (.ref r))
  | num (v : Binary64) : Proper ref var (.operand (.num v))
  | paren {e : Node} : Proper ref var e → Proper ref var (.operand (.paren e))
  | var {x : String} : var x → Proper ref var (.operand (.var x))

variable {ref ref' : Ref → Prop} {var var' : String → Prop} {l : Level} {n x first : Node}
  {xs ys : List Node} {ops os : List String} {links : List Link}

/-! ## What lowering makes -/

/-- Operands with an operator between each two of them are a first operand and links. -/
theorem exists_links (h : ops.length + 1 = xs.length) :
    ∃ (first : Node) (links : List Link),
      xs = first :: links.map (·.2) ∧ ops = links.map (·.1) := by
  cases xs with
  | nil => simp at h
  | cons x xs =>
    have hlen : ops.length = xs.length := by simpa using h
    refine ⟨x, ops.zip xs, ?_, ?_⟩
    · rw [List.map_snd_zip (by omega)]
    · rw [List.map_fst_zip (by omega)]

theorem Proper.chain_of_length (hlen : ops.length + 1 = xs.length)
    (hops : ∀ op ∈ ops, l.accepts op = true) (hxs : ∀ x ∈ xs, Proper ref var x) :
    Proper ref var (.chain l xs ops) := by
  obtain ⟨first, links, rfl, rfl⟩ := exists_links hlen
  exact .chain (hxs _ List.mem_cons_self) (fun k hk => hops _ (List.mem_map_of_mem hk)) fun k hk =>
    hxs _ (List.mem_cons_of_mem _ (List.mem_map_of_mem hk))

theorem refsList_eq (xs : List Node) : refsList xs = xs.flatMap refs := by
  induction xs with
  | nil => rfl
  | cons x xs ih => rw [refsList, ih, List.flatMap_cons]

theorem mem_refsList {r : Ref} : r ∈ refsList xs ↔ ∃ x ∈ xs, r ∈ x.refs := by
  rw [refsList_eq, List.mem_flatMap]

theorem varsList_eq (xs : List Node) : varsList xs = xs.flatMap vars := by
  induction xs with
  | nil => rfl
  | cons x xs ih => rw [varsList, ih, List.flatMap_cons]

theorem mem_varsList {v : String} : v ∈ varsList xs ↔ ∃ x ∈ xs, v ∈ x.vars := by
  rw [varsList_eq, List.mem_flatMap]

/-- What is known of all references and variables of a tree. -/
theorem Proper.of_leaves (h : Proper ref var n) (href : ∀ r ∈ n.refs, ref' r)
    (hvar : ∀ x ∈ n.vars, var' x) : Proper ref' var' n := by
  induction h with
  | @chain _ first links _ hops _ ihfirst ihlinks =>
    simp only [refs, vars, mem_refsList, mem_varsList] at href hvar
    refine .chain (ihfirst (fun r hr => href r ⟨_, List.mem_cons_self, hr⟩)
      fun x hx => hvar x ⟨_, List.mem_cons_self, hx⟩) hops fun k hk => ?_
    have hmem : k.2 ∈ first :: links.map (·.2) :=
      List.mem_cons_of_mem _ (List.mem_map_of_mem hk)
    exact ihlinks k hk (fun r hr => href r ⟨_, hmem, hr⟩) fun x hx => hvar x ⟨_, hmem, hx⟩
  | unary hops _ ih => exact .unary hops (ih href hvar)
  | call hf hne _ ih =>
    simp only [refs, vars, mem_refsList, mem_varsList] at href hvar
    exact .call hf hne fun x hx => ih x hx (fun r hr => href r ⟨x, hx, hr⟩)
      fun v hv => hvar v ⟨x, hx, hv⟩
  | ref => exact .ref (href _ (by simp [refs]))
  | num v => exact .num v
  | paren _ ih => exact .paren (ih href hvar)
  | var => exact .var (hvar _ (by simp [vars]))

end Node

namespace Surface

theorem checkChain_ok {rule : String} {operands : Nat} {ops : List String} {l : Level}
    (h : checkChain rule operands ops = .ok l) :
    ops.length + 1 = operands ∧ ∀ op ∈ ops, l.accepts op = true := by
  unfold checkChain at h
  split at h
  · cases h
  split at h
  · cases h
  next hlen =>
  split at h
  · cases h
  next hfind =>
  cases h
  refine ⟨by omega, fun op hop => ?_⟩
  simpa using List.find?_eq_none.1 hfind op hop

theorem checkUnary_ok {ops : List String} (h : checkUnary ops = .ok ()) :
    ∀ op ∈ ops, Operator.isPrefixSpelling op = true := by
  unfold checkUnary at h
  split at h
  · cases h
  next hfind =>
  exact fun op hop => by simpa using List.find?_eq_none.1 hfind op hop

theorem checkCall_ok {f : String} {args : Nat} (h : checkCall f args = .ok ()) :
    f ∈ functionNames ∧ args ≠ 0 := by
  unfold checkCall at h
  split at h
  · cases h
  next hf =>
  split at h
  · cases h
  next hargs => exact ⟨not_not.1 hf, hargs⟩

mutual

/-- Lowering makes proper trees. -/
theorem Expr.proper_of_lower : ∀ {e : Expr} {n : Node}, e.lower = .ok n →
    n.Proper (fun _ => True) (fun _ => True)
  | .binary rule xs ops, n, h => by
    obtain ⟨l, hl, h⟩ := bind_eq_ok.1 h
    obtain ⟨ys, hys, h⟩ := bind_eq_ok.1 h
    cases h
    obtain ⟨hlen, hops⟩ := checkChain_ok hl
    obtain ⟨hlen', hproper⟩ := proper_of_lowerList hys
    exact .chain_of_length (by omega) hops hproper
  | .unary ops e, n, h => by
    obtain ⟨⟨⟩, hops, h⟩ := bind_eq_ok.1 h
    obtain ⟨y, hy, h⟩ := bind_eq_ok.1 h
    cases h
    exact .unary (checkUnary_ok hops) (Expr.proper_of_lower hy)
  | .operand (.call f xs), n, h => by
    obtain ⟨⟨⟩, hcall, h⟩ := bind_eq_ok.1 h
    obtain ⟨ys, hys, h⟩ := bind_eq_ok.1 h
    cases h
    obtain ⟨hf, hargs⟩ := checkCall_ok hcall
    obtain ⟨hlen, hproper⟩ := proper_of_lowerList hys
    refine .call hf ?_ hproper
    rintro rfl
    exact hargs hlen.symm
  | .operand (.ref r), n, h => by
    cases h
    exact .ref trivial
  | .operand (.num v), n, h => by
    cases h
    exact .num v
  | .operand (.paren e), n, h => by
    obtain ⟨y, hy, h⟩ := bind_eq_ok.1 h
    cases h
    exact .paren (Expr.proper_of_lower hy)
  | .operand (.var x), n, h => by
    cases h
    exact .var trivial

theorem proper_of_lowerList : ∀ {xs : List Expr} {ys : List Node}, lowerList xs = .ok ys →
    ys.length = xs.length ∧ ∀ y ∈ ys, y.Proper (fun _ => True) (fun _ => True)
  | [], ys, h => by
    cases h
    simp
  | x :: xs, ys, h => by
    obtain ⟨y, hy, h⟩ := bind_eq_ok.1 h
    obtain ⟨zs, hzs, h⟩ := bind_eq_ok.1 h
    cases h
    obtain ⟨hlen, hproper⟩ := proper_of_lowerList hzs
    refine ⟨by simp [hlen], fun z hz => ?_⟩
    rcases List.mem_cons.1 hz with rfl | hz
    · exact Expr.proper_of_lower hy
    · exact hproper z hz

end

/-! ## Trees that are lowered -/

section

variable {ι : Type} {xs : List ι} {expr : ι → Expr} {node : ι → Node} {op : ι → String}

theorem lowerList_map (h : ∀ i ∈ xs, (expr i).lower = .ok (node i)) :
    lowerList (xs.map expr) = .ok (xs.map node) := by
  induction xs with
  | nil => rfl
  | cons i xs ih =>
    obtain ⟨hi, hxs⟩ := List.forall_mem_cons.1 h
    simp only [List.map_cons, lowerList, hi, ih hxs, ok_bind]
    rfl

theorem lower_binary {l : Level} {first : Expr} {n : Node} (hfirst : first.lower = .ok n)
    (hops : ∀ i ∈ xs, l.accepts (op i) = true) (h : ∀ i ∈ xs, (expr i).lower = .ok (node i)) :
    (Expr.binary l.rule (first :: xs.map expr) (xs.map op)).lower =
      .ok (.chain l (n :: xs.map node) (xs.map op)) := by
  have hcheck : checkChain l.rule (first :: xs.map expr).length (xs.map op) = .ok l := by
    have hfind : (xs.map op).find? (!l.accepts ·) = none := by
      simpa using hops
    simp [checkChain, hfind]
  rw [Expr.lower, hcheck]
  simp only [ok_bind, lowerList, hfirst, lowerList_map h]
  rfl

theorem lower_unary {ops : List String} {e : Expr} {n : Node}
    (hops : ∀ op ∈ ops, Operator.isPrefixSpelling op = true) (h : e.lower = .ok n) :
    (Expr.unary ops e).lower = .ok (.unary ops n) := by
  have hfind : ops.find? (!Operator.isPrefixSpelling ·) = none := by
    simpa using hops
  simp only [Expr.lower, checkUnary, hfind, h]
  rfl

theorem lower_call {f : String} (hf : f ∈ functionNames) (hne : xs ≠ [])
    (h : ∀ i ∈ xs, (expr i).lower = .ok (node i)) :
    (Expr.operand (.call f (xs.map expr))).lower = .ok (.operand (.call f (xs.map node))) := by
  have hcheck : checkCall f (xs.map expr).length = .ok () := by
    simp [checkCall, hf, hne]
  rw [Expr.lower, hcheck]
  simp only [ok_bind, lowerList_map h]
  rfl

end

end Surface

namespace Node

variable {ref : Ref → Prop} {var : String → Prop} {l : Level} {n x first : Node}
  {xs : List Node} {ops os : List String} {k : Link} {links : List Link}

/-! ## Splicing nested chains -/

theorem nestedChain?_eq_some :
    nestedChain? l x = some (xs, ops) ↔
      x = .chain l xs ops ∨ x = .operand (.paren (.chain l xs ops)) := by
  unfold nestedChain?
  constructor
  · intro h
    split at h
    · split at h
      · next hl =>
        cases h
        exact .inl (hl ▸ rfl)
      · cases h
    · split at h
      · next hl =>
        cases h
        exact .inr (hl ▸ rfl)
      · cases h
    · cases h
  · rintro (rfl | rfl) <;> exact if_pos rfl

/-- The chain behind a proper operand. -/
theorem Proper.nested (h : Proper ref var x) (hx : nestedChain? l x = some (xs, ops)) :
    ∃ (first : Node) (links : List Link), xs = first :: links.map (·.2) ∧ ops = links.map (·.1) ∧
      Proper ref var first ∧ (∀ k ∈ links, l.accepts k.1 = true) ∧
      ∀ k ∈ links, Proper ref var k.2 := by
  have hchain : Proper ref var (.chain l xs ops) := by
    rcases nestedChain?_eq_some.1 hx with rfl | rfl
    · exact h
    · cases h
      assumption
  cases hchain with
  | chain hfirst hops hlinks => exact ⟨_, _, rfl, rfl, hfirst, hops, hlinks⟩

/-- The first operand of a chain with what comes out of it: a nested chain is spliced in. -/
def front (l : Level) (x : Node) : Node × List Link :=
  match nestedChain? l x with
  | some (y :: ys, inner) => (y, inner.zip ys)
  | _ => (x, [])

/-- What comes out of a link: a nested chain is spliced in where that keeps the meaning. -/
def spread (l : Level) (k : Link) : List Link :=
  match nestedChain? l k.2 with
  | some (y :: ys, inner) =>
    match spliced? l (some k.1) inner with
    | some ops => (k.1, y) :: ops.zip ys
    | none => [k]
  | _ => [k]

theorem zip_links (links : List Link) : (links.map (·.1)).zip (links.map (·.2)) = links := by
  rw [List.zip_map', List.map_id']

theorem length_of_spliced? {before : Option String} (h : spliced? l before ops = some os) :
    os.length = ops.length := by
  unfold spliced? at h
  split at h
  · cases h
    rfl
  · repeat' split at h
    all_goals cases h <;> simp

theorem segment_none (h : Proper ref var x) :
    segment l none x =
      ((front l x).1 :: (front l x).2.map (·.2), (front l x).2.map (·.1)) := by
  unfold segment front
  cases hx : nestedChain? l x with
  | none => rfl
  | some nested =>
    obtain ⟨y, links, hxs, hops, -⟩ := h.nested hx
    obtain ⟨xs, ops⟩ := nested
    dsimp only at hxs hops
    subst hxs hops
    simp [spliced?, zip_links]

theorem segment_some (h : Proper ref var k.2) :
    segment l (some k.1) k.2 = ((spread l k).map (·.2), (spread l k).map (·.1)) := by
  unfold segment spread
  cases hx : nestedChain? l k.2 with
  | none => rfl
  | some nested =>
    obtain ⟨y, links, hxs, hops, -⟩ := h.nested hx
    obtain ⟨xs, ops⟩ := nested
    dsimp only at hxs hops
    subst hxs hops
    cases hos : spliced? l (some k.1) (links.map (·.1)) with
    | none => simp only [hos, List.map_cons, List.map_nil, Option.toList_some]
    | some os =>
      have hlen := length_of_spliced? hos
      rw [List.length_map] at hlen
      simp only [hos, List.map_cons, Option.toList_some, List.singleton_append]
      rw [List.map_snd_zip (by simp [hlen]), List.map_fst_zip (by simp [hlen])]

theorem flattenRest_links (h : ∀ k ∈ links, Proper ref var k.2) :
    flattenRest l (links.map (·.2)) (links.map (·.1)) =
      ((links.flatMap (spread l)).map (·.2), (links.flatMap (spread l)).map (·.1)) := by
  induction links with
  | nil => rfl
  | cons k links ih =>
    have hrest := ih fun k' hk' => h k' (List.mem_cons_of_mem _ hk')
    simp only [List.map_cons, flattenRest, segment_some (h k List.mem_cons_self), hrest,
      List.flatMap_cons, List.map_append]

/-- The links of a chain with all nested chains spliced in. -/
def flatLinks (l : Level) (first : Node) (links : List Link) : List Link :=
  (front l first).2 ++ links.flatMap (spread l)

theorem flatten_links (hfirst : Proper ref var first) (h : ∀ k ∈ links, Proper ref var k.2) :
    flatten l (first :: links.map (·.2)) (links.map (·.1)) =
      ((front l first).1 :: (flatLinks l first links).map (·.2),
        (flatLinks l first links).map (·.1)) := by
  simp only [flatten, segment_none hfirst, flattenRest_links h, flatLinks, List.map_append,
    List.cons_append]

/-! ## Folding literals -/

/-- The first operand and the links that folding leaves. -/
def foldLinks (l : Level) (first : Node) : List Link → Node × List Link
  | [] => (first, [])
  | k :: links =>
    match foldedPair? l k.1 first k.2 with
    | some v => foldLinks l v links
    | none => (first, k :: links)

theorem foldFront_links (first : Node) (links : List Link) :
    foldFront l first (links.map (·.2)) (links.map (·.1)) =
      ((foldLinks l first links).1 :: (foldLinks l first links).2.map (·.2),
        (foldLinks l first links).2.map (·.1)) := by
  induction links generalizing first with
  | nil => rfl
  | cons k links ih =>
    simp only [List.map_cons, foldFront, foldLinks]
    cases foldedPair? l k.1 first k.2 with
    | none => rfl
    | some v => exact ih v

/-- A chain, or its only operand. -/
def joined (l : Level) (first : Node) (links : List Link) : Node :=
  if links = [] then asOperand first
  else .chain l (first :: links.map (·.2)) (links.map (·.1))

/-- Simplifying a chain is splicing, folding, and collapsing what has a single operand left. -/
theorem simplifyChain_links (hfirst : Proper ref var first) (h : ∀ k ∈ links, Proper ref var k.2) :
    simplifyChain l (first :: links.map (·.2)) (links.map (·.1)) =
      joined l (foldLinks l (front l first).1 (flatLinks l first links)).1
        (foldLinks l (front l first).1 (flatLinks l first links)).2 := by
  unfold simplifyChain joined
  rw [flatten_links hfirst h]
  simp only [foldLiterals, foldFront_links]
  cases (foldLinks l (front l first).1 (flatLinks l first links)).2 with
  | nil => rfl
  | cons k links => rfl

theorem foldLinks_suffix (first : Node) (links : List Link) :
    (foldLinks l first links).2 <:+ links := by
  induction links generalizing first with
  | nil => exact List.suffix_refl _
  | cons k links ih =>
    unfold foldLinks
    split
    · exact (ih _).trans (List.suffix_cons ..)
    · exact List.suffix_refl _

theorem foldedPair?_eq_some {op : String} {a b w : Node} :
    foldedPair? l op a b = some w ↔ ∃ x y v, a.number? = some x ∧ b.number? = some y ∧
      applyOperator? l op x y = some v ∧ w = .operand (.num v) := by
  unfold foldedPair?
  cases a.number? with
  | none => simp
  | some x =>
    cases b.number? with
    | none => simp
    | some y =>
      simp only [Option.map_eq_some_iff, Option.some.injEq, exists_and_left, exists_eq_left']
      exact exists_congr fun v => and_congr_right fun _ => eq_comm

/-- The first operand stays, or a literal takes its place. -/
theorem foldLinks_first (first : Node) (links : List Link) :
    (foldLinks l first links).1 = first ∨ ∃ v, (foldLinks l first links).1 = .operand (.num v) := by
  induction links generalizing first with
  | nil => exact .inl rfl
  | cons k links ih =>
    unfold foldLinks
    split
    · next v hv =>
      obtain ⟨-, -, x, -, -, -, rfl⟩ := foldedPair?_eq_some.1 hv
      rcases ih (.operand (.num x)) with h | h
      · exact .inr ⟨x, h⟩
      · exact .inr h
    · exact .inl rfl

/-- Folding goes on as long as it can. -/
theorem foldLinks_stop (first : Node) (links : List Link) {rest : List Link}
    (h : (foldLinks l first links).2 = k :: rest) :
    foldedPair? l k.1 (foldLinks l first links).1 k.2 = none := by
  induction links generalizing first with
  | nil => cases h
  | cons k' links ih =>
    unfold foldLinks at h ⊢
    split at h
    · exact ih _ h
    · next hv =>
      cases h
      exact hv

/-! ## Simplified trees -/

theorem simplifyList_eq_map (xs : List Node) : simplifyList xs = xs.map simplify := by
  induction xs with
  | nil => rfl
  | cons x xs ih => rw [simplifyList, ih, List.map_cons]

theorem simplifyBindings_eq_map (bs : List (Binding Node)) :
    simplifyBindings bs = bs.map fun b => ⟨b.name, b.value.simplify⟩ := by
  induction bs with
  | nil => rfl
  | cons b bs ih => rw [simplifyBindings, ih, List.map_cons]

/-- A link with a simple operand. -/
def Link.simplify (k : Link) : Link := (k.1, k.2.simplify)

/-- The operands of a chain are simplified before the chain. -/
theorem simplify_links (l : Level) (first : Node) (links : List Link) :
    (Node.chain l (first :: links.map (·.2)) (links.map (·.1))).simplify =
      simplifyChain l (first.simplify :: (links.map Link.simplify).map (·.2))
        ((links.map Link.simplify).map (·.1)) := by
  simp [simplify, simplifyList_eq_map, Link.simplify, Function.comp_def]

theorem Proper.asOperand (h : Proper ref var n) : n.asOperand = n := by
  cases h <;> rfl

/-- What is no operand comes into parentheses. -/
theorem Proper.ofNode_eq_paren (h : Proper ref var n) (hn : ∀ o, n ≠ .operand o) :
    Operand.ofNode n = .paren n := by
  cases h with
  | chain => rfl
  | unary => rfl
  | _ => exact absurd rfl (hn _)

theorem Proper.ofNode (h : Proper ref var n) : Proper ref var (.operand (.ofNode n)) := by
  cases h with
  | chain hfirst hops hlinks => exact .paren (.chain hfirst hops hlinks)
  | unary hops he => exact .paren (.unary hops he)
  | call hf hne hxs => exact .call hf hne hxs
  | ref hr => exact .ref hr
  | num v => exact .num v
  | paren he => exact .paren he
  | var hx => exact .var hx

theorem accepts_of_spliced? {op : String} (h : spliced? l (some op) ops = some os)
    (hops : ∀ op ∈ ops, l.accepts op = true) : ∀ op ∈ os, l.accepts op = true := by
  unfold spliced? at h
  dsimp only at h
  split at h
  · cases h
    exact hops
  split at h
  · cases h
    exact hops
  split at h
  · next hsum =>
    cases h
    intro op hop
    obtain ⟨o, -, rfl⟩ := List.mem_map.1 hop
    rw [hsum.1]
    unfold flipSign
    split <;> rfl
  split at h
  · cases h
    exact hops
  · cases h

theorem Proper.front (h : Proper ref var x) : Proper ref var (front l x).1 ∧
    (∀ k ∈ (Node.front l x).2, l.accepts k.1 = true) ∧
    ∀ k ∈ (Node.front l x).2, Proper ref var k.2 := by
  unfold Node.front
  cases hx : nestedChain? l x with
  | none => exact ⟨h, by simp, by simp⟩
  | some nested =>
    obtain ⟨y, links, hxs, hops, hy, haccepts, hlinks⟩ := h.nested hx
    obtain ⟨xs, ops⟩ := nested
    dsimp only at hxs hops
    subst hxs hops
    simp only [zip_links]
    exact ⟨hy, haccepts, hlinks⟩

theorem Proper.spread (hop : l.accepts k.1 = true) (h : Proper ref var k.2) :
    (∀ j ∈ spread l k, l.accepts j.1 = true) ∧ ∀ j ∈ Node.spread l k, Proper ref var j.2 := by
  unfold Node.spread
  have hself : (∀ j ∈ [k], l.accepts j.1 = true) ∧ ∀ j ∈ [k], Proper ref var j.2 := by
    constructor <;> rintro j hj <;> cases List.mem_singleton.1 hj <;> assumption
  cases hx : nestedChain? l k.2 with
  | none => exact hself
  | some nested =>
    obtain ⟨y, links, hxs, hops, hy, haccepts, hlinks⟩ := h.nested hx
    obtain ⟨xs, ops⟩ := nested
    dsimp only at hxs hops
    subst hxs hops
    cases hos : spliced? l (some k.1) (links.map (·.1)) with
    | none =>
      simp only [hos]
      exact hself
    | some os =>
      have haccepts' := accepts_of_spliced? hos (by simpa using haccepts)
      simp only [hos]
      constructor <;> intro j hj <;> rcases List.mem_cons.1 hj with rfl | hj
      · exact hop
      · exact haccepts' _ (List.of_mem_zip hj).1
      · exact hy
      · obtain ⟨j', hj', heq⟩ := List.mem_map.1 (List.of_mem_zip hj).2
        exact heq ▸ hlinks j' hj'

theorem Proper.flatLinks (hfirst : Proper ref var first) (hops : ∀ k ∈ links, l.accepts k.1 = true)
    (h : ∀ k ∈ links, Proper ref var k.2) :
    (∀ k ∈ flatLinks l first links, l.accepts k.1 = true) ∧
      ∀ k ∈ Node.flatLinks l first links, Proper ref var k.2 := by
  unfold Node.flatLinks
  constructor <;> intro k hk <;> rcases List.mem_append.1 hk with hk | hk
  · exact hfirst.front.2.1 k hk
  · obtain ⟨j, hj, hk⟩ := List.mem_flatMap.1 hk
    exact ((h j hj).spread (hops j hj)).1 k hk
  · exact hfirst.front.2.2 k hk
  · obtain ⟨j, hj, hk⟩ := List.mem_flatMap.1 hk
    exact ((h j hj).spread (hops j hj)).2 k hk

theorem Proper.simplifyChain (hfirst : Proper ref var first)
    (hops : ∀ k ∈ links, l.accepts k.1 = true) (h : ∀ k ∈ links, Proper ref var k.2) :
    Proper ref var (simplifyChain l (first :: links.map (·.2)) (links.map (·.1))) := by
  rw [simplifyChain_links hfirst h]
  obtain ⟨hops', hlinks'⟩ := hfirst.flatLinks hops h
  have hsuffix := foldLinks_suffix (l := l) (Node.front l first).1 (Node.flatLinks l first links)
  have hfirst' : Proper ref var
      (foldLinks l (Node.front l first).1 (Node.flatLinks l first links)).1 := by
    rcases foldLinks_first (l := l) (Node.front l first).1 (Node.flatLinks l first links) with
      heq | ⟨v, heq⟩
    · rw [heq]
      exact hfirst.front.1
    · rw [heq]
      exact .num v
  unfold joined
  split
  · rw [hfirst'.asOperand]
    exact hfirst'
  · exact .chain hfirst' (fun k hk => hops' k (hsuffix.subset hk)) fun k hk =>
      hlinks' k (hsuffix.subset hk)

theorem reduceSigns_subset (ops : List String) (e : Node) : (reduceSigns ops e).1 ⊆ ops := by
  fun_induction reduceSigns ops e with
  | case1 e => simp
  | case2 e rest ih => exact fun op hop => by simp [ih hop]
  | case3 e rest ih => exact fun op hop => by simp [ih hop]
  | case4 e rest _ v _ ih => exact fun op hop => by simp [ih hop]
  | case5 e rest _ _ => simp
  | case6 e op rest _ _ _ => simp

theorem reduceSigns_operand (ops : List String) (e : Node) :
    (reduceSigns ops e).2 = e ∨ ∃ v, (reduceSigns ops e).2 = .operand (.num v) := by
  fun_induction reduceSigns ops e with
  | case1 e => exact .inl rfl
  | case2 e rest ih => exact ih
  | case3 e rest ih => exact ih
  | case4 e rest _ v _ ih => exact .inr (ih.elim (fun h => ⟨_, h⟩) id)
  | case5 e rest _ _ => exact .inl rfl
  | case6 e op rest _ _ _ => exact .inl rfl

theorem Proper.simplifyUnary (hops : ∀ op ∈ ops, Operator.isPrefixSpelling op = true)
    (h : Proper ref var x) : Proper ref var (simplifyUnary ops x) := by
  have hoperand : Proper ref var (reduceSigns ops.reverse x).2 := by
    rcases reduceSigns_operand ops.reverse x with heq | ⟨v, heq⟩
    · rw [heq]
      exact h
    · rw [heq]
      exact .num v
  have hsubset := reduceSigns_subset ops.reverse x
  unfold Node.simplifyUnary
  split
  · next e heq =>
    rw [heq] at hoperand
    rw [hoperand.asOperand]
    exact hoperand
  · next os e _ heq =>
    rw [heq] at hoperand hsubset
    exact .unary (fun op hop => hops op (by simpa using hsubset (List.mem_reverse.1 hop))) hoperand

/-- Simplification keeps a tree proper, and adds no references or variables. -/
theorem Proper.simplify (h : Proper ref var n) : Proper ref var n.simplify := by
  induction h with
  | @chain l first links _ hops _ ihfirst ihlinks =>
    rw [simplify_links]
    exact ihfirst.simplifyChain (List.forall_mem_map.2 hops) (List.forall_mem_map.2 ihlinks)
  | unary hops _ ih => exact ih.simplifyUnary hops
  | @call f xs hf hne _ ih =>
    rw [Node.simplify, simplifyList_eq_map]
    refine .call hf (by simpa using hne) fun y hy => ?_
    obtain ⟨x, hx, rfl⟩ := List.mem_map.1 hy
    exact ih x hx
  | ref hr => exact .ref hr
  | num v => exact .num v
  | paren _ ih => exact ih.ofNode
  | var hx => exact .var hx

theorem hasOperatorsList_eq_all (xs : List Node) :
    hasOperatorsList xs = xs.all hasOperators := by
  induction xs with
  | nil => rfl
  | cons x xs ih => rw [hasOperatorsList, ih, List.all_cons]

theorem hasOperatorsBindings_eq_all (bs : List (Binding Node)) :
    hasOperatorsBindings bs = bs.all (·.value.hasOperators) := by
  induction bs with
  | nil => rfl
  | cons b bs ih => rw [hasOperatorsBindings, ih, List.all_cons]

/-- No operator is missing in a proper tree. -/
theorem Proper.hasOperators (h : Proper ref var n) : n.hasOperators = true := by
  induction h with
  | chain _ _ _ ihfirst ihlinks =>
    simpa [Node.hasOperators, hasOperatorsList_eq_all, ihfirst] using fun _ x hx => ihlinks _ hx
  | unary _ _ ih => exact ih
  | call _ _ _ ih => simpa [Node.hasOperators, hasOperatorsList_eq_all] using ih
  | paren _ ih => exact ih
  | _ => rfl

theorem Proper.simplify? (h : Proper ref var n) : n.simplify? = some n.simplify :=
  if_pos h.hasOperators

end Node

end GridSweep
