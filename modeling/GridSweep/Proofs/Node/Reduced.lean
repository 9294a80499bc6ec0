import GridSweep.Proofs.Node.Proper

/-!
# Reduced trees

A tree is reduced if no rule of simplification applies anywhere in it: chains have links, nothing in
them can be spliced or folded, signs are cancelled, and parentheses hold more than an operand.
Simplifying a proper tree reduces it (`Proper.reduced_simplify`), and a reduced tree is left as it
is (`Reduced.simplify_eq`), so simplifying twice is no different from simplifying once.
-/

namespace GridSweep.Node

/-- A nested chain behind this operator has to stay where it is. -/
def Flat (l : Level) (k : Link) : Prop :=
  ∀ xs inner, nestedChain? l k.2 = some (xs, inner) → spliced? l (some k.1) inner = none

inductive Reduced : Node → Prop where
  | chain {l : Level} {first : Node} {links : List Link} : links ≠ [] → Reduced first →
    (∀ k ∈ links, Reduced k.2) → nestedChain? l first = none → (∀ k ∈ links, Flat l k) →
    foldLinks l first links = (first, links) →
    Reduced (.chain l (first :: links.map (·.2)) (links.map (·.1)))
  | unary {ops : List String} {e : Node} : ops ≠ [] →
    reduceSigns ops.reverse e = (ops.reverse, e) → Reduced e → Reduced (.unary ops e)
  | call {f : String} {xs : List Node} : (∀ x ∈ xs, Reduced x) → Reduced (.operand (.call f xs))
  | ref (r : Ref) : Reduced (.operand (.ref r))
  | num (v : Binary64) : Reduced (.operand (.num v))
  | paren {e : Node} : Reduced e → (∀ o, e ≠ .operand o) → Reduced (.operand (.paren e))
  | var (x : String) : Reduced (.operand (.var x))

variable {ref : Ref → Prop} {var : String → Prop} {l : Level} {n x first : Node}
  {xs : List Node} {ops os : List String} {op : String} {k : Link} {links : List Link}

/-! ## Chains and their links -/

/-- The links of a chain are determined by its operands and operators. -/
theorem links_inj {first' : Node} {links' : List Link}
    (hxs : first :: links.map (·.2) = first' :: links'.map (·.2))
    (hops : links.map (·.1) = links'.map (·.1)) : first = first' ∧ links = links' := by
  obtain ⟨hfirst, hsnd⟩ := List.cons.inj hxs
  exact ⟨hfirst, by rw [← zip_links links, ← zip_links links', hsnd, hops]⟩

theorem chain_inj {l' : Level} {first' : Node} {links' : List Link}
    (h : Node.chain l (first :: links.map (·.2)) (links.map (·.1)) =
      .chain l' (first' :: links'.map (·.2)) (links'.map (·.1))) :
    l = l' ∧ first = first' ∧ links = links' := by
  injection h with hl hxs hops
  exact ⟨hl, links_inj hxs hops⟩

theorem Proper.of_chain
    (h : Proper ref var (.chain l (first :: links.map (·.2)) (links.map (·.1)))) :
    Proper ref var first ∧ (∀ k ∈ links, l.accepts k.1 = true) ∧
      ∀ k ∈ links, Proper ref var k.2 := by
  generalize hn : Node.chain l (first :: links.map (·.2)) (links.map (·.1)) = n at h
  cases h with
  | chain hfirst hops hlinks =>
    obtain ⟨rfl, rfl, rfl⟩ := chain_inj hn
    exact ⟨hfirst, hops, hlinks⟩
  | _ => cases hn

theorem Reduced.of_chain (h : Reduced (.chain l (first :: links.map (·.2)) (links.map (·.1)))) :
    Reduced first ∧ (∀ k ∈ links, Reduced k.2) ∧ links ≠ [] ∧ nestedChain? l first = none ∧
      (∀ k ∈ links, Flat l k) ∧ foldLinks l first links = (first, links) := by
  generalize hn : Node.chain l (first :: links.map (·.2)) (links.map (·.1)) = n at h
  cases h with
  | chain hne hfirst hlinks hnested hflat hfold =>
    obtain ⟨rfl, rfl, rfl⟩ := chain_inj hn
    exact ⟨hfirst, hlinks, hne, hnested, hflat, hfold⟩
  | _ => cases hn

/-- The chain behind a reduced operand. -/
theorem Reduced.nested (h : Reduced x) (hx : nestedChain? l x = some (xs, ops)) :
    ∃ (first : Node) (links : List Link), xs = first :: links.map (·.2) ∧ ops = links.map (·.1) ∧
      Reduced first ∧ (∀ k ∈ links, Reduced k.2) ∧ nestedChain? l first = none ∧
      ∀ k ∈ links, Flat l k := by
  have hchain : Reduced (.chain l xs ops) := by
    rcases nestedChain?_eq_some.1 hx with rfl | rfl
    · exact h
    · cases h
      assumption
  cases hchain with
  | chain _ hfirst hlinks hnested hflat _ =>
    exact ⟨_, _, rfl, rfl, hfirst, hlinks, hnested, hflat⟩

theorem front_of_none (h : nestedChain? l x = none) : front l x = (x, []) := by
  rw [front, h]

theorem Flat.spread (h : Flat l k) : spread l k = [k] := by
  unfold Node.spread
  split
  · next y ys inner hx => rw [h _ _ hx]
  · rfl

theorem flatMap_spread (h : ∀ k ∈ links, Flat l k) : links.flatMap (spread l) = links := by
  induction links with
  | nil => rfl
  | cons k links ih =>
    obtain ⟨hk, hlinks⟩ := List.forall_mem_cons.1 h
    rw [List.flatMap_cons, hk.spread, ih hlinks, List.singleton_append]

/-- A chain with a single operand gives way to it. -/
theorem simplifyChain_single (h : Proper ref var x) (hx : nestedChain? l x = none) :
    simplifyChain l [x] [] = x := by
  have hlinks := @simplifyChain_links ref var l x [] h (by simp)
  rw [flatLinks, front_of_none hx] at hlinks
  exact hlinks.trans h.asOperand

/-- What the signs of a unary node are reduced to stands in front of its operand. -/
theorem simplifyUnary_of_reduceSigns {e : Node} (hne : os ≠ [])
    (h : reduceSigns ops.reverse x = (os.reverse, e)) : simplifyUnary ops x = .unary os e := by
  obtain ⟨op, rest, hos⟩ := List.exists_cons_of_ne_nil (mt List.reverse_eq_nil_iff.1 hne)
  rw [simplifyUnary, h, hos]
  change Node.unary (op :: rest).reverse e = _
  rw [← hos, List.reverse_reverse]

theorem reduceSigns_of_simplifyUnary {o : Operand Node} (hx : Proper ref var x)
    (h : simplifyUnary ops x = .operand o) : reduceSigns ops.reverse x = ([], .operand o) := by
  have hoperand : (reduceSigns ops.reverse x).2.asOperand = (reduceSigns ops.reverse x).2 := by
    rcases reduceSigns_operand ops.reverse x with heq | ⟨v, heq⟩ <;> rw [heq]
    · exact hx.asOperand
    · rfl
  unfold simplifyUnary at h
  split at h
  · next e hsigns =>
    rw [hsigns] at hoperand ⊢
    rw [← h, hoperand]
  · cases h

/-! ## Reduced trees stay as they are -/

theorem Reduced.simplifyChain_eq
    (h : Reduced (.chain l (first :: links.map (·.2)) (links.map (·.1))))
    (hn : Proper ref var (.chain l (first :: links.map (·.2)) (links.map (·.1)))) :
    simplifyChain l (first :: links.map (·.2)) (links.map (·.1)) =
      .chain l (first :: links.map (·.2)) (links.map (·.1)) := by
  obtain ⟨hfirst, -, hlinks⟩ := hn.of_chain
  obtain ⟨-, -, hne, hnested, hflat, hfold⟩ := h.of_chain
  rw [simplifyChain_links hfirst hlinks, flatLinks, front_of_none hnested, List.nil_append,
    flatMap_spread hflat, hfold, joined, if_neg hne]

theorem Reduced.simplify_eq (h : Reduced n) (hn : Proper ref var n) : n.simplify = n := by
  induction h with
  | @chain l first links hne hrfirst hrlinks hnested hflat hfold ihfirst ihlinks =>
    obtain ⟨hfirst, -, hlinks⟩ := hn.of_chain
    have hmap : (links.map (·.2)).map simplify = links.map (·.2) := by
      rw [List.map_map]
      exact List.map_congr_left fun k hk => ihlinks k hk (hlinks k hk)
    rw [simplify, simplifyList, simplifyList_eq_map, hmap, ihfirst hfirst,
      (Reduced.chain hne hrfirst hrlinks hnested hflat hfold).simplifyChain_eq hn]
  | @unary ops e hne hsigns _ ih =>
    cases hn with
    | unary _ he => rw [simplify, ih he, simplifyUnary_of_reduceSigns hne hsigns]
  | @call f xs _ ih =>
    cases hn with
    | call _ _ hxs =>
      have hmap : xs.map simplify = xs := by
        conv_rhs => rw [← List.map_id xs]
        exact List.map_congr_left fun x hx => ih x hx (hxs x hx)
      rw [simplify, simplifyList_eq_map, hmap]
  | @paren e _ hoperand ih =>
    cases hn with
    | paren he =>
      rw [simplify, ih he, he.ofNode_eq_paren hoperand]
  | _ => rfl

/-! ## Simplification reduces -/

theorem spliced?_eq_some (h : spliced? l (some op) ops = some os) :
    os = ops ∨ l = .sum ∧ os = ops.map flipSign := by
  unfold spliced? at h
  dsimp only at h
  split at h
  · exact .inl (Option.some.inj h).symm
  split at h
  · exact .inl (Option.some.inj h).symm
  split at h
  · next hsum => exact .inr ⟨hsum.1, (Option.some.inj h).symm⟩
  split at h
  · exact .inl (Option.some.inj h).symm
  · cases h

/-- Nothing stays behind a sign of a sum. -/
theorem Flat.nested_sum (h : Flat .sum k) (hop : Level.sum.accepts k.1 = true) :
    nestedChain? .sum k.2 = none := by
  cases hx : nestedChain? .sum k.2 with
  | none => rfl
  | some nested =>
    have hstay := h nested.1 nested.2 hx
    obtain ⟨o, ho, htext⟩ := Level.accepts_iff.1 hop
    rw [← htext] at hstay
    simp only [Level.operators, List.mem_cons, List.not_mem_nil, or_false] at ho
    rcases ho with rfl | rfl <;> cases hstay

theorem flat_of_none (h : nestedChain? l k.2 = none) : Flat l k := fun xs inner hx => by
  rw [h] at hx
  cases hx

theorem Reduced.front (h : Reduced x) : Reduced (front l x).1 ∧
    nestedChain? l (Node.front l x).1 = none ∧
    ∀ k ∈ (Node.front l x).2, Reduced k.2 ∧ Flat l k := by
  unfold Node.front
  cases hx : nestedChain? l x with
  | none => exact ⟨h, hx, by simp⟩
  | some nested =>
    obtain ⟨y, links, hxs, hops, hy, hlinks, hnested, hflat⟩ := h.nested hx
    obtain ⟨xs, ops⟩ := nested
    dsimp only at hxs hops
    subst hxs hops
    simp only [zip_links]
    exact ⟨hy, hnested, fun k hk => ⟨hlinks k hk, hflat k hk⟩⟩

theorem Reduced.spread (h : Reduced k.2) (hk : Proper ref var k.2) :
    ∀ j ∈ spread l k, Reduced j.2 ∧ Flat l j := by
  unfold Node.spread
  cases hx : nestedChain? l k.2 with
  | none => simpa using ⟨h, flat_of_none hx⟩
  | some nested =>
    obtain ⟨y, links, hxs, hops, hy, hlinks, hnested, hflat⟩ := h.nested hx
    obtain ⟨xs, ops⟩ := nested
    dsimp only at hxs hops
    subst hxs hops
    cases hos : spliced? l (some k.1) (links.map (·.1)) with
    | none =>
      simp only [hos, List.mem_singleton, forall_eq]
      refine ⟨h, fun xs inner hx' => ?_⟩
      rw [hx] at hx'
      cases hx'
      exact hos
    | some os =>
      simp only [hos]
      refine List.forall_mem_cons.2 ⟨⟨hy, flat_of_none hnested⟩, ?_⟩
      rcases spliced?_eq_some hos with rfl | ⟨rfl, rfl⟩
      · rw [zip_links]
        exact fun j hj => ⟨hlinks j hj, hflat j hj⟩
      · -- the signs change, and in a sum nothing depends on them
        intro j hj
        rw [List.map_map, List.zip_map'] at hj
        obtain ⟨i, hi, rfl⟩ := List.mem_map.1 hj
        obtain ⟨y', links', hxs, hops, -, haccepts, -⟩ := hk.nested hx
        obtain ⟨rfl, rfl⟩ := links_inj hxs hops
        exact ⟨hlinks i hi, flat_of_none ((hflat i hi).nested_sum (haccepts i hi))⟩

theorem foldLinks_foldLinks (first : Node) (links : List Link) :
    foldLinks l (foldLinks l first links).1 (foldLinks l first links).2 =
      foldLinks l first links := by
  cases hlinks : (foldLinks l first links).2 with
  | nil => rw [foldLinks, ← hlinks]
  | cons k rest =>
    rw [foldLinks, foldLinks_stop first links hlinks, ← hlinks]

theorem reduceSigns_reduceSigns (ops : List String) (e : Node) :
    reduceSigns (reduceSigns ops e).1 (reduceSigns ops e).2 = reduceSigns ops e := by
  fun_induction reduceSigns ops e with
  | case1 e => rfl
  | case2 e rest ih => exact ih
  | case3 e rest ih => exact ih
  | case4 e rest _ v _ ih => exact ih
  | case5 e rest _ hnumber =>
    rw [reduceSigns.eq_def]
    simp [hnumber]
  | case6 e op rest _ _ _ =>
    rw [reduceSigns.eq_def]
    simp

/-- A sign in front of a literal does not stay. -/
theorem number?_eq_none_of_minus {rest : List String} {e : Node}
    (h : reduceSigns ("-" :: rest) e = ("-" :: rest, e)) : e.number? = none := by
  have hlength (ops : List String) (e : Node) : (reduceSigns ops e).1.length ≤ ops.length := by
    fun_induction reduceSigns ops e with
    | case2 e rest ih => simp only [List.length_cons]; omega
    | case3 e rest ih => simp only [List.length_cons]; omega
    | case4 e rest _ v _ ih => simp only [List.length_cons]; omega
    | _ => simp
  cases hnumber : e.number? with
  | none => rfl
  | some v =>
    have hlonger : (reduceSigns ("-" :: rest) e).1.length ≤ rest.length := by
      rw [reduceSigns.eq_def]
      cases rest with
      | nil => simp [hnumber, reduceSigns]
      | cons op rest =>
        by_cases hop : op = "-"
        · subst hop
          have := hlength rest e
          simp only [List.length_cons]
          omega
        · simpa [hnumber, hop] using hlength (op :: rest) (.operand (.num v.neg))
    rw [h, List.length_cons] at hlonger
    omega

/-- Signs that go away altogether leave the others to be reduced as before. -/
theorem reduceSigns_append {a : List String} {e e' : Node} (h : reduceSigns ops e = ([], e'))
    (ha : a.head? = some "-" → e'.number? = none) :
    reduceSigns (ops ++ a) e = reduceSigns a e' := by
  fun_induction reduceSigns ops e with
  | case1 e =>
    cases h
    rfl
  | case2 e rest ih => exact ih h
  | case3 e rest ih => exact ih h
  | case4 e rest hrest v hnumber ih =>
    -- no second sign comes next: it would be in front of a literal
    have hnext : ∀ rest', rest ++ a ≠ "-" :: rest' := by
      intro rest' heq
      cases rest with
      | nil =>
        cases h
        rw [List.nil_append] at heq
        simp [number?, heq] at ha
      | cons op rest =>
        obtain ⟨rfl, -⟩ := List.cons.inj heq
        exact hrest rest rfl
    rw [List.cons_append, reduceSigns.eq_def]
    simp [hnumber, ih h]
  | case5 e rest _ _ => simp at h
  | case6 e op rest _ _ _ => simp at h

theorem Reduced.simplifyChain (hfirst : Reduced first) (hlinks : ∀ k ∈ links, Reduced k.2)
    (hfirst' : Proper ref var first) (hlinks' : ∀ k ∈ links, Proper ref var k.2) :
    Reduced (simplifyChain l (first :: links.map (·.2)) (links.map (·.1))) := by
  rw [simplifyChain_links hfirst' hlinks']
  obtain ⟨hfront, hnested, hinner⟩ := hfirst.front (l := l)
  have hflat : ∀ k ∈ flatLinks l first links, Reduced k.2 ∧ Flat l k := by
    intro k hk
    rcases List.mem_append.1 hk with hk | hk
    · exact hinner k hk
    · obtain ⟨j, hj, hk⟩ := List.mem_flatMap.1 hk
      exact (hlinks j hj).spread (hlinks' j hj) k hk
  have hsuffix := foldLinks_suffix (l := l) (Node.front l first).1 (flatLinks l first links)
  have hfold := foldLinks_foldLinks (l := l) (Node.front l first).1 (flatLinks l first links)
  have hhead : Reduced (foldLinks l (Node.front l first).1 (flatLinks l first links)).1 ∧
      nestedChain? l (foldLinks l (Node.front l first).1 (flatLinks l first links)).1 = none ∧
      (foldLinks l (Node.front l first).1 (flatLinks l first links)).1.asOperand =
        (foldLinks l (Node.front l first).1 (flatLinks l first links)).1 := by
    rcases foldLinks_first (l := l) (Node.front l first).1 (flatLinks l first links) with
      heq | ⟨v, heq⟩ <;> rw [heq]
    · exact ⟨hfront, hnested, hfirst'.front.1.asOperand⟩
    · exact ⟨.num v, rfl, rfl⟩
  unfold joined
  split
  · rw [hhead.2.2]
    exact hhead.1
  · next hne =>
    exact .chain hne hhead.1 (fun k hk => (hflat k (hsuffix.subset hk)).1) hhead.2.1
      (fun k hk => (hflat k (hsuffix.subset hk)).2) hfold

theorem Reduced.simplifyUnary (h : Reduced x) (hx : Proper ref var x) :
    Reduced (simplifyUnary ops x) := by
  have hoperand : Reduced (reduceSigns ops.reverse x).2 ∧
      (reduceSigns ops.reverse x).2.asOperand = (reduceSigns ops.reverse x).2 := by
    rcases reduceSigns_operand ops.reverse x with heq | ⟨v, heq⟩ <;> rw [heq]
    · exact ⟨h, hx.asOperand⟩
    · exact ⟨.num v, rfl⟩
  have hagain := reduceSigns_reduceSigns ops.reverse x
  unfold Node.simplifyUnary
  split
  · next e heq =>
    rw [heq] at hoperand
    rw [hoperand.2]
    exact hoperand.1
  · next os e hne heq =>
    rw [heq] at hoperand hagain
    refine .unary (fun hnil => hne ?_) (by rwa [List.reverse_reverse]) hoperand.1
    exact List.reverse_eq_nil_iff.1 hnil

theorem Reduced.ofNode (h : Reduced x) (hx : Proper ref var x) :
    Reduced (.operand (.ofNode x)) := by
  cases hx with
  | chain => exact .paren h (by simp)
  | unary => exact .paren h (by simp)
  | _ => exact h

/-- Simplifying a proper tree leaves nothing to simplify. -/
theorem Proper.reduced_simplify (h : Proper ref var n) : Reduced n.simplify := by
  induction h with
  | @chain l first links hfirst _ hlinks ihfirst ihlinks =>
    rw [simplify_links]
    exact ihfirst.simplifyChain (List.forall_mem_map.2 ihlinks) hfirst.simplify
      (List.forall_mem_map.2 fun k hk => (hlinks k hk).simplify)
  | unary _ he ih => exact ih.simplifyUnary he.simplify
  | @call f xs _ _ _ ih =>
    rw [Node.simplify, simplifyList_eq_map]
    exact .call (List.forall_mem_map.2 ih)
  | ref => exact .ref _
  | num v => exact .num v
  | paren he ih => exact ih.ofNode he.simplify
  | var => exact .var _

/-- What lowering makes is reduced by one simplification, and a second one changes nothing. No
operator is missing for either. -/
theorem simplify_twice {e : Surface.Expr} (h : e.lower = .ok n) :
    ∃ s, n.simplify? = some s ∧ Reduced s ∧ s.simplify? = some s := by
  have hproper := Surface.Expr.proper_of_lower h
  have hagain : n.simplify.simplify = n.simplify :=
    hproper.reduced_simplify.simplify_eq hproper.simplify
  refine ⟨n.simplify, hproper.simplify?, hproper.reduced_simplify, ?_⟩
  rw [hproper.simplify.simplify?, hagain]

/-- `2 * (3 * (-(-(4 - 1)) * (a / -b)))`. -/
def nestedFactors : Surface.Expr :=
  let product x y op := Surface.Expr.binary "MulDiv" [x, y] [op]
  let paren e := Surface.Expr.operand (.paren e)
  product (.operand (.num ⟨0x4000000000000000⟩))
    (paren (product (.operand (.num ⟨0x4008000000000000⟩))
      (paren (product
        (.unary ["-"] (paren (.unary ["-"] (paren (.binary "AddSub"
          [.operand (.num ⟨0x4010000000000000⟩), .operand (.num ⟨0x3ff0000000000000⟩)] ["-"])))))
        (paren (product (.operand (.var "a")) (.unary ["-"] (.operand (.var "b"))) "/"))
        "*"))
      "*"))
    "*"

/-- The literals are folded into one, and the quotient stays in its parentheses. -/
theorem nestedFactors_simplify_twice : ∃ n, nestedFactors.lower = .ok n ∧
    ∃ s, n.simplify? = some s ∧ Reduced s ∧ s.simplify? = some s ∧
      s = .chain .product [.operand (.num ⟨0x4032000000000000⟩),
        .operand (.paren (.chain .product
          [.operand (.var "a"), .unary ["-"] (.operand (.var "b"))] ["/"]))] ["*"] := by
  obtain ⟨n, hn⟩ : ∃ n, nestedFactors.lower = .ok n := ⟨_, rfl⟩
  obtain ⟨s, hs, hreduced, hagain⟩ := simplify_twice hn
  refine ⟨n, hn, s, hs, hreduced, hagain, ?_⟩
  have hfirst : (nestedFactors.lower.toOption.bind simplify?) = some (.chain .product
      [.operand (.num ⟨0x4032000000000000⟩),
        .operand (.paren (.chain .product
          [.operand (.var "a"), .unary ["-"] (.operand (.var "b"))] ["/"]))] ["*"]) := by
    decide +kernel
  rw [hn] at hfirst
  exact Option.some.inj (hs.symm.trans hfirst)

end GridSweep.Node
