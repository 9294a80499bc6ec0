import GridSweep.Proofs.Node.Grouping
import GridSweep.Proofs.Node.Meaning
import GridSweep.Proofs.Node.Spelling

/-!
# Printed expressions read back

The text of a grouped tree is read as a tree that means the same, and the text of a tidy, reduced
tree as one that simplifies to it (`exists_reads`). The tree that is read has more nodes than the
one that was printed: every level stands in it, and the sign of a literal is an operator.
-/

namespace GridSweep

open Surface Node

/-- How a text is read: its tokens, the expression they are parsed to, and that lowered. -/
structure Reading where
  tokens : List Token
  expr : Expr
  node : Node

instance : Inhabited Reading := ⟨⟨[], .operand (.num ⟨0⟩), default⟩⟩

/-- A tree is printed as a text with this reading, at a place for chains of the levels `ls`. -/
structure Reads (ls : List Level) (n : Node) (ρ : Reading) : Prop where
  spells : Spells n.text ρ.tokens
  derives : Derives (.levels ls) ρ.tokens ρ.expr
  lowers : ρ.expr.lower = .ok ρ.node
  value : ∀ {V : Type} [AddCommGroup V] (I : Interpretation V) (s : Assignment V),
    I.value s ρ.node = I.value s n
  simplify : Reduced n → Tidy ls n → ρ.node.simplify = n

variable {ref : Ref → Prop} {var : String → Prop} {l : Level} {ls : List Level} {n first : Node}
  {xs : List Node} {links : List Link} {ρ : Reading}

/-! ## Levels without operators -/

/-- A chain of one operand around the reading. -/
theorem Reads.cons (h : Reads ls n ρ) (hproper : Proper ref var n)
    (hn : ∀ xs ops, n ≠ .chain l xs ops) : ∃ ρ, Reads (l :: ls) n ρ := by
  refine ⟨⟨ρ.tokens, .binary l.rule [ρ.expr] [], .chain l [ρ.node] []⟩, h.spells, ?_, ?_, ?_, ?_⟩
  · have := @Derives.chain l ls ⟨ρ.tokens, ρ.expr⟩ [] h.derives (by simp) (by simp)
    simpa using this
  · exact @lower_binary Empty [] nofun nofun nofun l ρ.expr ρ.node h.lowers (by simp) (by simp)
  · intro V _ I s
    exact h.value I s
  · intro hreduced htidy
    obtain ⟨htidy, hnested⟩ := htidy.tail hn
    change simplifyChain l [ρ.node.simplify] [] = n
    rw [h.simplify hreduced htidy, simplifyChain_single hproper (hnested hreduced)]

theorem Reads.append {looser : List Level} (h : Reads ls n ρ) (hproper : Proper ref var n)
    (hn : ∀ l ∈ looser, ∀ xs ops, n ≠ .chain l xs ops) : ∃ ρ, Reads (looser ++ ls) n ρ := by
  induction looser with
  | nil => exact ⟨ρ, h⟩
  | cons l looser ih =>
    obtain ⟨hl, hlooser⟩ := List.forall_mem_cons.1 hn
    obtain ⟨ρ', h'⟩ := ih hlooser
    exact h'.cons hproper hl

/-- Operands and unary nodes stand below all levels. -/
theorem exists_reads_of_nil (h : ∃ ρ, Reads [] n ρ)
    (hproper : Proper Ref.Spellable (isIdentifier · = true) n)
    (hn : ∀ l xs ops, n ≠ .chain l xs ops) : ∃ ρ, Reads ls n ρ := by
  obtain ⟨ρ, hρ⟩ := h
  have hlifted : ∃ ρ, Reads (ls ++ []) n ρ := hρ.append hproper fun l _ => hn l
  rwa [List.append_nil] at hlifted

/-! ## Prefix operators and operands -/

/-- A reading with prefix operators in front of an operand. -/
theorem reads_unary {ops : List Operator} {ts : List Token} {e : Expr} {m : Node}
    (hops : ∀ op ∈ ops, op ∈ Operator.prefixes) (hspells : Spells n.text (ops.map .operator ++ ts))
    (hderives : Derives .operand ts e) (hlowers : e.lower = .ok m)
    (hvalue : ∀ {V : Type} [AddCommGroup V] (I : Interpretation V) (s : Assignment V),
      (ops.map (·.text)).foldr I.unary (I.value s m) = I.value s n)
    (hsimplify : Reduced n → Tidy [] n → simplifyUnary (ops.map (·.text)) m.simplify = n) :
    Reads [] n
      ⟨ops.map .operator ++ ts, .unary (ops.map (·.text)) e, .unary (ops.map (·.text)) m⟩ where
  spells := hspells
  derives := .unary hops hderives
  lowers := lower_unary (List.forall_mem_map.2 fun op hop =>
    Operator.isPrefixSpelling_iff.2 ⟨op, hops op hop, rfl⟩) hlowers
  value := hvalue
  simplify := hsimplify

theorem reads_operand {o : Operand Node} {ts : List Token} {e : Expr} {m : Node}
    (hspells : Spells (Node.operand o).text ts)
    (hderives : Derives .operand ts e) (hlowers : e.lower = .ok m)
    (hvalue : ∀ {V : Type} [AddCommGroup V] (I : Interpretation V) (s : Assignment V),
      I.value s m = I.value s (.operand o))
    (hsimplify : Reduced (.operand o) → Tidy [] (.operand o) → m.simplify = .operand o) :
    ∃ ρ, Reads [] (.operand o) ρ :=
  ⟨_, @reads_unary (.operand o) [] ts e m (by simp) hspells hderives hlowers hvalue
    fun hreduced htidy => by
      rw [hsimplify hreduced htidy]
      rfl⟩

/-- The sign of a literal is read as an operator in front of it. -/
theorem reads_num {v : Binary64} (h : v.IsFinite) : ∃ ρ, Reads [] (.operand (.num v)) ρ := by
  have hspells := spells_constant h
  cases hsign : v.isNegative with
  | false =>
    rw [hsign, if_neg (by simp)] at hspells
    exact reads_operand hspells (.float v) rfl (fun _ _ => rfl) fun _ _ => rfl
  | true =>
    rw [hsign, if_pos rfl] at hspells
    refine ⟨_, @reads_unary (.operand (.num v)) [.minus] [.float v.neg] _ _ (by decide) hspells
      (.float v.neg) rfl ?_ fun _ _ => ?_⟩
    · intro V _ I s
      change I.unary "-" (I.literal v.neg) = I.literal v
      rw [I.unary_minus, I.literal_neg, neg_neg]
    · change Node.operand (.num v.neg.neg) = .operand (.num v)
      rw [Binary64.neg_neg]

theorem reads_ref {r : Ref} (h : r.Spellable) : ∃ ρ, Reads [] (.operand (.ref r)) ρ := by
  obtain ⟨name, idx⟩ := r
  choose! spelling hspelling using fun i hi => spells_index (h.fits i hi)
  have hspells := spells_application (φ := fun i => ⟨spelling i, i⟩) h.name h.indexed
    fun i hi => (hspelling i hi).2
  have hderives := @Derives.ref name (idx.map fun i => ⟨spelling i, i⟩) h.notFunction
    (by simpa using h.indexed) (List.forall_mem_map.2 fun i hi => (hspelling i hi).1)
  rw [List.map_map] at hderives
  simp only [Function.comp_def, List.map_id'] at hderives
  exact reads_operand hspells hderives rfl (fun _ _ => rfl) fun _ _ => rfl

theorem reads_var {x : String} (h : isIdentifier x = true) : ∃ ρ, Reads [] (.operand (.var x)) ρ :=
  reads_operand (spells_identifier h) (.var x) rfl (fun _ _ => rfl) fun _ _ => rfl

theorem textList_eq_map (xs : List Node) : textList xs = xs.map text := by
  induction xs with
  | nil => rfl
  | cons x xs ih => rw [textList, ih, List.map_cons]

theorem isIdentifier_of_mem_functionNames {f : String} (h : f ∈ functionNames) :
    isIdentifier f = true := by
  simp only [functionNames, List.mem_cons, List.not_mem_nil, or_false] at h
  rcases h with rfl | rfl <;> decide

theorem reads_call {f : String} (hf : f ∈ functionNames) (hne : xs ≠ [])
    (h : ∀ x ∈ xs, ∃ ρ, Reads Level.all x ρ) : ∃ ρ, Reads [] (.operand (.call f xs)) ρ := by
  choose! ρ hρ using h
  have hspells := spells_application (φ := fun x => ⟨(ρ x).tokens, (ρ x).expr⟩)
    (isIdentifier_of_mem_functionNames hf) hne fun x hx => (hρ x hx).spells
  have hderives := @Derives.call f (xs.map fun x => ⟨(ρ x).tokens, (ρ x).expr⟩) hf
    (by simpa using hne) (List.forall_mem_map.2 fun x hx => (hρ x hx).derives)
  rw [List.map_map] at hderives
  refine reads_operand (by rwa [text, callText, textList_eq_map]) hderives
    (lower_call hf hne fun x hx => (hρ x hx).lowers) ?_ ?_
  · intro V _ I s
    change I.call f (I.values s _) = I.call f (I.values s xs)
    rw [Interpretation.values_eq_map, Interpretation.values_eq_map, List.map_map]
    exact congrArg _ (List.map_congr_left fun x hx => (hρ x hx).value I s)
  · intro hreduced htidy
    cases hreduced with
    | call hreduced =>
      cases htidy with
      | call htidy =>
        rw [simplify, simplifyList_eq_map, List.map_map]
        have hmap : xs.map (Node.simplify ∘ fun x => (ρ x).node) = xs.map id :=
          List.map_congr_left fun x hx => (hρ x hx).simplify (hreduced x hx) (htidy x hx)
        rw [hmap, List.map_id]

theorem Reads.paren (h : Reads Level.all n ρ) (hproper : Proper ref var n) :
    ∃ ρ, Reads [] (.operand (.paren n)) ρ := by
  have hlowers : (Expr.operand (.paren ρ.expr)).lower = .ok (.operand (.paren ρ.node)) := by
    simp only [Expr.lower, h.lowers]
    rfl
  refine reads_operand h.spells.paren (.paren h.derives) hlowers (fun I s => h.value I s) ?_
  intro hreduced htidy
  cases hreduced with
  | paren hreduced hoperand =>
    cases htidy with
    | paren _ htidy =>
      rw [Node.simplify, h.simplify hreduced htidy, hproper.ofNode_eq_paren hoperand]

theorem exists_prefixes {ops : List String} (h : ∀ op ∈ ops, Operator.isPrefixSpelling op = true) :
    ∃ os : List Operator, (∀ op ∈ os, op ∈ Operator.prefixes) ∧ ops = os.map (·.text) := by
  induction ops with
  | nil => exact ⟨[], by simp, rfl⟩
  | cons op ops ih =>
    obtain ⟨hop, hops⟩ := List.forall_mem_cons.1 h
    obtain ⟨os, hos, rfl⟩ := ih hops
    obtain ⟨o, ho, rfl⟩ := Operator.isPrefixSpelling_iff.1 hop
    exact ⟨o :: os, List.forall_mem_cons.2 ⟨ho, hos⟩, rfl⟩

/-- Signs in front of what is itself read with signs. -/
theorem Reads.unary {ops : List String} (h : Reads [] n ρ)
    (hops : ∀ op ∈ ops, Operator.isPrefixSpelling op = true) : ∃ ρ, Reads [] (.unary ops n) ρ := by
  obtain ⟨os, hos, rfl⟩ := exists_prefixes hops
  obtain ⟨ts, e, m⟩ := ρ
  obtain ⟨hspells, hderives, hlowers, hvalue, hsimplify⟩ := h
  dsimp only at hspells hderives hlowers hvalue hsimplify
  cases hderives with
  | @unary inner ts e hinner hderives =>
    obtain ⟨m, hm, rfl⟩ : ∃ m', e.lower = .ok m' ∧ m = .unary (inner.map (·.text)) m' := by
      obtain ⟨_, -, h⟩ := bind_eq_ok.1 hlowers
      obtain ⟨m', hm', h⟩ := bind_eq_ok.1 h
      cases h
      exact ⟨m', hm', rfl⟩
    have hprefixes : ∀ op ∈ os ++ inner, op ∈ Operator.prefixes := fun op hop =>
      (List.mem_append.1 hop).elim (hos op) (hinner op)
    refine ⟨_, @reads_unary (.unary (os.map (·.text)) n) (os ++ inner) ts e m hprefixes ?_
      hderives hm ?_ ?_⟩
    · rw [List.map_append, List.append_assoc]
      exact hspells.unary hos
    · intro V _ I s
      have hinner := hvalue I s
      rw [Interpretation.value] at hinner ⊢
      rw [List.map_append, List.foldr_append, hinner]
    · intro hreduced htidy
      cases htidy with
      | @unary _ _ o ho =>
        cases hreduced with
        | unary hne hsigns hreduced =>
          -- the inner signs go away altogether, so the outer ones are reduced as in the tree
          have hsigns' := reduceSigns_of_simplifyUnary (Expr.proper_of_lower hm).simplify
            (hsimplify hreduced ho)
          refine simplifyUnary_of_reduceSigns hne ?_
          rw [List.map_append, List.reverse_append, reduceSigns_append hsigns' ?_, hsigns]
          intro hminus
          obtain ⟨rest, hrest⟩ := List.head?_eq_some_iff.1 hminus
          rw [hrest] at hsigns
          exact number?_eq_none_of_minus hsigns

/-! ## Chains -/

/-- A chain at a place where its level is the loosest. -/
theorem Reads.chain (hfirst : Reads l.tighter first ρ)
    (hlinks : ∀ k ∈ links, ∃ ρ, Reads l.tighter k.2 ρ)
    (hproper : Proper ref var (.chain l (first :: links.map (·.2)) (links.map (·.1)))) :
    ∃ ρ, Reads (l :: l.tighter) (.chain l (first :: links.map (·.2)) (links.map (·.1))) ρ := by
  obtain ⟨-, haccepts, -⟩ := hproper.of_chain
  have : Inhabited Operator := ⟨.plus⟩
  choose! op hop using fun k hk => Level.accepts_iff.1 (haccepts k hk)
  choose! ρs hρs using hlinks
  have htexts : links.map (fun k => (op k).text) = links.map (·.1) :=
    List.map_congr_left fun k hk => (hop k hk).2
  have hspells := Spells.chain op hfirst.spells fun k hk => (hρs k hk).spells
  have hderives := @Derives.chain l l.tighter ⟨ρ.tokens, ρ.expr⟩
    (links.map fun k => (op k, ⟨(ρs k).tokens, (ρs k).expr⟩)) hfirst.derives
    (List.forall_mem_map.2 fun k hk => (hop k hk).1)
    (List.forall_mem_map.2 fun k hk => (hρs k hk).derives)
  rw [htexts] at hspells
  simp only [List.flatMap_map, List.map_map, Function.comp_def, htexts] at hderives
  let read : List Link := links.map fun k => (k.1, (ρs k).node)
  have hread : Node.chain l (ρ.node :: links.map fun k => (ρs k).node) (links.map (·.1)) =
      .chain l (ρ.node :: read.map (·.2)) (read.map (·.1)) := by
    simp [read, Function.comp_def]
  have hlowers := lower_binary hfirst.lowers haccepts fun k hk => (hρs k hk).lowers
  rw [hread] at hlowers
  refine ⟨⟨_, _, _⟩, ?_, hderives, hlowers, ?_, ?_⟩
  · rwa [text, textList, textList_eq_map, List.map_map]
  · intro V _ I s
    rw [Interpretation.value_chain, Interpretation.value_chain, hfirst.value I s]
    exact Interpretation.linked_map _ fun k hk => (hρs k hk).value I s
  · -- the operands that are read simplify to the ones printed, and with those the chain is reduced
    intro hreduced htidy
    obtain ⟨hrfirst, hrlinks, -⟩ := hreduced.of_chain
    obtain ⟨-, htfirst, htlinks⟩ := htidy.of_chain
    have hsimple : read.map Link.simplify = links := by
      conv_rhs => rw [← List.map_id links]
      rw [List.map_map]
      exact List.map_congr_left fun k hk =>
        Prod.ext rfl ((hρs k hk).simplify (hrlinks k hk) (htlinks k hk))
    rw [simplify_links, hsimple, hfirst.simplify hrfirst htfirst, hreduced.simplifyChain_eq hproper]

/-- Every grouped tree of writable names and finite literals reads back from its text. -/
theorem exists_reads (h : Proper Ref.Spellable (isIdentifier · = true) n) (hls : ls <:+ Level.all)
    (hgrouped : n.grouped ls = true) (hfinite : ∀ v ∈ n.literals, v.IsFinite) :
    ∃ ρ, Reads ls n ρ := by
  induction h generalizing ls with
  | @chain l first links hfirst hops hlinks ihfirst ihlinks =>
    simp only [Node.grouped, Bool.and_eq_true, List.contains_iff_mem, groupedList_iff,
      List.forall_mem_cons, List.forall_mem_map] at hgrouped
    simp only [literals, mem_literalsList] at hfinite
    obtain ⟨hl, hgfirst, hglinks⟩ := hgrouped
    obtain ⟨ρ, hρ⟩ := ihfirst l.suffix_tighter hgfirst fun v hv =>
      hfinite v ⟨_, List.mem_cons_self, hv⟩
    have hreads : ∀ k ∈ links, ∃ ρ, Reads l.tighter k.2 ρ := fun k hk =>
      ihlinks k hk l.suffix_tighter (hglinks k hk) fun v hv =>
        hfinite v ⟨_, List.mem_cons_of_mem _ (List.mem_map_of_mem hk), hv⟩
    have hproper := Proper.chain hfirst hops hlinks
    obtain ⟨ρ', hρ'⟩ := hρ.chain hreads hproper
    -- the looser levels of the place stand around the chain with one operand each
    obtain ⟨looser, rfl, hlooser⟩ := Level.eq_append_tighter hls hl
    refine hρ'.append hproper ?_
    rintro l' hl' xs ops heq
    cases heq
    exact hlooser hl'
  | @unary ops e hops he ih =>
    obtain ⟨ρ, hρ⟩ := ih (List.nil_suffix) hgrouped hfinite
    exact exists_reads_of_nil (hρ.unary hops) (.unary hops he) (by simp)
  | @call f xs hf hne hxs ih =>
    refine exists_reads_of_nil (reads_call hf hne fun x hx => ?_) (.call hf hne hxs) (by simp)
    exact ih x hx (List.suffix_refl _) (groupedList_iff.1 hgrouped x hx) fun v hv =>
      hfinite v (mem_literalsList.2 ⟨x, hx, hv⟩)
  | ref hr => exact exists_reads_of_nil (reads_ref hr) (.ref hr) (by simp)
  | num v =>
    exact exists_reads_of_nil (reads_num (hfinite v List.mem_cons_self)) (.num v) (by simp)
  | @paren e he ih =>
    obtain ⟨ρ, hρ⟩ := ih (List.suffix_refl _) hgrouped hfinite
    exact exists_reads_of_nil (hρ.paren he) (.paren he) (by simp)
  | var hx => exact exists_reads_of_nil (reads_var hx) (.var hx) (by simp)

end GridSweep
