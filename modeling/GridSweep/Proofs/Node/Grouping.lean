import GridSweep.Proofs.Node.Reduced
import GridSweep.Proofs.Surface.Grammar
import Mathlib.Data.List.Infix

/-!
# Grouping without parentheses

A chain prints without parentheses of its own, so its text is read back as that chain only where
looser or equal levels are not around it. `grouped` says this of a whole tree: the levels that may
stand at a place without parentheses are given, and below a chain only the tighter ones are left.

Trees that come out of a text are `Tidy` when they are simplified: they are grouped, and parentheses
stand only where they are needed.
-/

namespace GridSweep

namespace Level

/-- The levels tighter than this one, loosest first. -/
def tighter (l : Level) : List Level := (all.dropWhile (· ≠ l)).tail

theorem suffix_tighter (l : Level) : l.tighter <:+ all := by
  cases l <;> decide

/-- A level splits the levels of a place into the looser and the tighter ones. -/
theorem eq_append_tighter {ls : List Level} {l : Level} (h : ls <:+ all) (hl : l ∈ ls) :
    ∃ looser, ls = looser ++ l :: l.tighter ∧ l ∉ looser := by
  have hsplit : ∀ ls ∈ all.tails, ∀ l ∈ ls,
      ls = ls.takeWhile (· ≠ l) ++ l :: l.tighter ∧ l ∉ ls.takeWhile (· ≠ l) := by decide
  exact ⟨_, hsplit ls ((List.mem_tails ..).2 h) l hl⟩

theorem eq_tighter_of_suffix {ls : List Level} {l : Level} (h : l :: ls <:+ all) :
    ls = l.tighter := by
  have hall : ∀ ls ∈ all.tails, ∀ l ∈ ls.head?, ls.tail = l.tighter := by decide
  exact hall _ ((List.mem_tails ..).2 h) l rfl

end Level

namespace Node

instance : Inhabited Node := ⟨.num ⟨0⟩⟩

mutual

/-- Every chain stands in parentheses or at a place for its level; `ls` are the levels that may
stand here. -/
def grouped : List Level → Node → Bool
  | ls, .chain l xs _ => ls.contains l && groupedList l.tighter xs
  | _, .unary _ e => grouped [] e
  | _, .operand (.call _ xs) => groupedList Level.all xs
  | _, .operand (.paren e) => grouped Level.all e
  | _, .call _ xs => groupedList Level.all xs
  | _, _ => true
termination_by structural _ n => n

def groupedList : List Level → List Node → Bool
  | _, [] => true
  | ls, x :: xs => grouped ls x && groupedList ls xs
termination_by structural _ xs => xs

end

mutual

/-- The literals of an expression, left to right. -/
def literals : Node → List Binary64
  | .chain _ xs _ => literalsList xs
  | .unary _ e => literals e
  | .operand (.call _ xs) => literalsList xs
  | .operand (.num v) => [v]
  | .operand (.paren e) => literals e
  | .call _ xs => literalsList xs
  | .num v => [v]
  | _ => []

def literalsList : List Node → List Binary64
  | [] => []
  | x :: xs => literals x ++ literalsList xs

end

variable {ref : Ref → Prop} {var : String → Prop} {l : Level} {ls : List Level} {n x first : Node}
  {xs : List Node} {ops : List String} {k : Link} {links : List Link}

theorem groupedList_iff : groupedList ls xs = true ↔ ∀ x ∈ xs, grouped ls x = true := by
  induction xs with
  | nil => simp [groupedList]
  | cons x xs ih => simp [groupedList, ih]

theorem mem_literalsList {v : Binary64} : v ∈ literalsList xs ↔ ∃ x ∈ xs, v ∈ x.literals := by
  induction xs with
  | nil => simp [literalsList]
  | cons x xs ih => simp [literalsList, ih]

/-! ## Tidy trees -/

/-- A grouped tree whose parentheses are all needed at a place for the levels `ls`, and whose prefix
operators stand in front of operands. -/
inductive Tidy : List Level → Node → Prop where
  | chain {ls : List Level} {l : Level} {first : Node} {links : List Link} : l ∈ ls →
    Tidy l.tighter first → (∀ k ∈ links, Tidy l.tighter k.2) →
    Tidy ls (.chain l (first :: links.map (·.2)) (links.map (·.1)))
  | unary {ls : List Level} {ops : List String} {o : Operand Node} : Tidy [] (.operand o) →
    Tidy ls (.unary ops (.operand o))
  | call {ls : List Level} {f : String} {xs : List Node} : (∀ x ∈ xs, Tidy Level.all x) →
    Tidy ls (.operand (.call f xs))
  | ref (ls : List Level) (r : Ref) : Tidy ls (.operand (.ref r))
  | num (ls : List Level) (v : Binary64) : Tidy ls (.operand (.num v))
  | paren {ls : List Level} {e : Node} : (∀ l ∈ ls, nestedChain? l e = none) → Tidy Level.all e →
    Tidy ls (.operand (.paren e))
  | var (ls : List Level) (x : String) : Tidy ls (.operand (.var x))

theorem Tidy.of_chain (h : Tidy ls (.chain l (first :: links.map (·.2)) (links.map (·.1)))) :
    l ∈ ls ∧ Tidy l.tighter first ∧ ∀ k ∈ links, Tidy l.tighter k.2 := by
  generalize hn : Node.chain l (first :: links.map (·.2)) (links.map (·.1)) = n at h
  cases h with
  | chain hl hfirst hlinks =>
    obtain ⟨rfl, rfl, rfl⟩ := chain_inj hn
    exact ⟨hl, hfirst, hlinks⟩
  | _ => cases hn

theorem Tidy.grouped (h : Tidy ls n) : n.grouped ls = true := by
  induction h with
  | chain hl _ _ ihfirst ihlinks =>
    simp only [Node.grouped, List.contains_iff_mem.2 hl, Bool.true_and, groupedList_iff]
    exact List.forall_mem_cons.2 ⟨ihfirst, List.forall_mem_map.2 ihlinks⟩
  | unary _ ih => exact ih
  | call _ ih => exact groupedList_iff.2 ih
  | paren _ _ ih => exact ih
  | _ => rfl

/-- The same chain is found with and without parentheses around it. -/
theorem nestedChain?_paren {e : Node} (h : ∀ o, e ≠ .operand o) :
    nestedChain? l (.operand (.paren e)) = nestedChain? l e := by
  cases e with
  | operand o => exact absurd rfl (h o)
  | _ => rfl

/-- One more level may stand here, if there is no chain of it in parentheses. -/
theorem Tidy.cons (h : Tidy ls n) (hn : nestedChain? l n = none) (hreduced : Reduced n) :
    Tidy (l :: ls) n := by
  cases h with
  | chain hl hfirst hlinks => exact .chain (List.mem_cons_of_mem _ hl) hfirst hlinks
  | unary ho => exact .unary ho
  | call hxs => exact .call hxs
  | ref => exact .ref _ _
  | num => exact .num _ _
  | paren hls he =>
    cases hreduced with
    | paren _ hoperand =>
      exact .paren (List.forall_mem_cons.2 ⟨nestedChain?_paren hoperand ▸ hn, hls⟩) he
  | var => exact .var _ _

/-- One level less, if the tree is no chain of it. -/
theorem Tidy.tail (h : Tidy (l :: ls) n) (hn : ∀ xs ops, n ≠ .chain l xs ops) :
    Tidy ls n ∧ (Reduced n → nestedChain? l n = none) := by
  cases h with
  | @chain _ m _ _ hm hfirst hlinks =>
    have hne : m ≠ l := by
      rintro rfl
      exact hn _ _ rfl
    exact ⟨.chain ((List.mem_cons.1 hm).resolve_left hne) hfirst hlinks, fun _ => if_neg hne⟩
  | unary ho => exact ⟨.unary ho, fun _ => rfl⟩
  | call hxs => exact ⟨.call hxs, fun _ => rfl⟩
  | ref => exact ⟨.ref _ _, fun _ => rfl⟩
  | num => exact ⟨.num _ _, fun _ => rfl⟩
  | paren hls he =>
    obtain ⟨hl, hls⟩ := List.forall_mem_cons.1 hls
    refine ⟨.paren hls he, fun hreduced => ?_⟩
    cases hreduced with
    | paren _ hoperand => exact (nestedChain?_paren hoperand).trans hl
  | var => exact ⟨.var _ _, fun _ => rfl⟩

theorem Tidy.operand_nil {o : Operand Node} (h : Tidy ls (.operand o)) : Tidy [] (.operand o) := by
  cases h with
  | call hxs => exact .call hxs
  | ref => exact .ref _ _
  | num => exact .num _ _
  | paren _ he => exact .paren (by simp) he
  | var => exact .var _ _

/-! ## Simplification keeps trees tidy -/

/-- The chain behind a tidy operand. -/
theorem Tidy.nested (h : Tidy ls x) (hx : nestedChain? l x = some (xs, ops)) :
    ∀ y ∈ xs, Tidy l.tighter y := by
  have hchain {ls : List Level} (h : Tidy ls (.chain l xs ops)) : ∀ y ∈ xs, Tidy l.tighter y := by
    cases h with
    | chain _ hfirst hlinks => exact List.forall_mem_cons.2 ⟨hfirst, List.forall_mem_map.2 hlinks⟩
  rcases nestedChain?_eq_some.1 hx with rfl | rfl
  · exact hchain h
  · cases h with
    | paren _ he => exact hchain he

theorem Tidy.front (h : Tidy l.tighter x) : Tidy l.tighter (front l x).1 ∧
    ∀ k ∈ (Node.front l x).2, Tidy l.tighter k.2 := by
  unfold Node.front
  split
  · next y ys inner hx =>
    obtain ⟨hy, hys⟩ := List.forall_mem_cons.1 (h.nested hx)
    exact ⟨hy, fun k hk => hys _ (List.of_mem_zip hk).2⟩
  · exact ⟨h, by simp⟩

theorem Tidy.spread (h : Tidy l.tighter k.2) : ∀ j ∈ spread l k, Tidy l.tighter j.2 := by
  unfold Node.spread
  split
  · next y ys inner hx =>
    obtain ⟨hy, hys⟩ := List.forall_mem_cons.1 (h.nested hx)
    split
    · exact List.forall_mem_cons.2 ⟨hy, fun j hj => hys _ (List.of_mem_zip hj).2⟩
    · simpa using h
  · simpa using h

theorem Tidy.simplifyChain (hfirst : Tidy l.tighter first)
    (hlinks : ∀ k ∈ links, Tidy l.tighter k.2) (hfirst' : Proper ref var first ∧ Reduced first)
    (hlinks' : ∀ k ∈ links, Proper ref var k.2) :
    Tidy (l :: l.tighter) (simplifyChain l (first :: links.map (·.2)) (links.map (·.1))) := by
  rw [simplifyChain_links hfirst'.1 hlinks']
  have hflat : ∀ k ∈ flatLinks l first links, Tidy l.tighter k.2 := by
    intro k hk
    rcases List.mem_append.1 hk with hk | hk
    · exact hfirst.front.2 k hk
    · obtain ⟨j, hj, hk⟩ := List.mem_flatMap.1 hk
      exact (hlinks j hj).spread k hk
  have hsuffix := foldLinks_suffix (l := l) (Node.front l first).1 (flatLinks l first links)
  obtain ⟨hreduced, hnested, -⟩ := hfirst'.2.front (l := l)
  -- folding puts a literal in place of the first operand, or leaves it
  unfold joined
  rcases foldLinks_first (l := l) (Node.front l first).1 (flatLinks l first links) with
    heq | ⟨v, heq⟩ <;> rw [heq] <;> split
  · rw [hfirst'.1.front.1.asOperand]
    exact hfirst.front.1.cons hnested hreduced
  · exact .chain List.mem_cons_self hfirst.front.1 fun k hk => hflat k (hsuffix.subset hk)
  · exact .num _ v
  · exact .chain List.mem_cons_self (.num _ v) fun k hk => hflat k (hsuffix.subset hk)

theorem Tidy.simplifyUnary {o : Operand Node} (h : Tidy [] (.operand o)) :
    Tidy [] (simplifyUnary ops (.operand o)) := by
  obtain ⟨o', heq, ho⟩ : ∃ o', (reduceSigns ops.reverse (.operand o)).2 = .operand o' ∧
      Tidy [] (.operand o') := by
    rcases reduceSigns_operand ops.reverse (.operand o) with heq | ⟨v, heq⟩
    · exact ⟨o, heq, h⟩
    · exact ⟨.num v, heq, .num _ v⟩
  unfold Node.simplifyUnary
  split
  · next e hsigns =>
    rw [hsigns] at heq
    dsimp only at heq
    rw [heq]
    exact ho
  · next os e _ hsigns =>
    rw [hsigns] at heq
    dsimp only at heq
    rw [heq]
    exact .unary ho

end Node

/-! ## Trees of texts -/

/-- A reference that can be written: its name is no function, and it has indices that fit. -/
structure Ref.Spellable (r : Ref) : Prop where
  name : isIdentifier r.name = true
  notFunction : r.name ∉ functionNames
  indexed : r.idx ≠ []
  fits : ∀ i ∈ r.idx, i.natAbs < 2 ^ 63

instance (r : Ref) : Decidable r.Spellable :=
  decidable_of_iff (isIdentifier r.name = true ∧ r.name ∉ functionNames ∧ r.idx ≠ [] ∧
    ∀ i ∈ r.idx, i.natAbs < 2 ^ 63)
    ⟨fun ⟨h₁, h₂, h₃, h₄⟩ => ⟨h₁, h₂, h₃, h₄⟩, fun ⟨h₁, h₂, h₃, h₄⟩ => ⟨h₁, h₂, h₃, h₄⟩⟩

namespace Surface

open Node

theorem IsIndex.natAbs_lt {ts : List Token} {i : Int} (h : IsIndex ts i)
    (hts : ∀ t ∈ ts, t.Lexical) : i.natAbs < 2 ^ 63 := by
  cases h with
  | plain n => exact hts (.int n) (by simp)
  | negative n =>
    rw [Int.natAbs_neg]
    exact hts (.int n) (by simp)

theorem mem_listing {α : Type} {φs : List (Phrase α)} {φ : Phrase α} (h : φ ∈ φs) :
    φ.tokens ⊆ listing φs := by
  cases φs with
  | nil => cases h
  | cons ψ φs =>
    intro t ht
    rcases List.mem_cons.1 h with rfl | h
    · exact List.mem_append_left _ ht
    · exact List.mem_append_right _ (List.mem_flatMap.2 ⟨φ, h, List.mem_cons_of_mem _ ht⟩)

/-- A derived tree is lowered, and it is tidy when it is simplified. -/
theorem Derives.tidy {s : Symbol} {ts : List Token} {e : Expr} (h : Derives s ts e)
    (hs : s.openLevels <:+ Level.all) (hts : ∀ t ∈ ts, t.Lexical) :
    ∃ n, e.lower = .ok n ∧ n.Proper Ref.Spellable (isIdentifier · = true) ∧
      Tidy s.openLevels n.simplify ∧ (s = .operand → ∃ o, n.simplify = .operand o) := by
  induction h with
  | @chain l ls first links hfirst hops hlinks ihfirst ihlinks =>
    obtain rfl := Level.eq_tighter_of_suffix hs
    obtain ⟨n, hn, hproper, htidy, -⟩ := ihfirst l.suffix_tighter
      fun t ht => hts t (List.mem_append_left _ ht)
    have hrest : ∀ k ∈ links, ∀ t ∈ k.2.tokens, t.Lexical := fun k hk t ht =>
      hts t (List.mem_append_right _ (List.mem_flatMap.2 ⟨k, hk, List.mem_cons_of_mem _ ht⟩))
    choose! node hnode using fun k hk => ihlinks k hk l.suffix_tighter (hrest k hk)
    have haccepts : ∀ k ∈ links, l.accepts k.1.text = true := fun k hk =>
      Level.accepts_iff.2 ⟨k.1, hops k hk, rfl⟩
    let links' : List Link := links.map fun k => (k.1.text, node k)
    have hlower := lower_binary hn haccepts fun k hk => (hnode k hk).1
    have hchain : Node.chain l (n :: links.map node) (links.map (·.1.text)) =
        .chain l (n :: links'.map (·.2)) (links'.map (·.1)) := by
      simp [links', Function.comp_def]
    have hproper' : ∀ k ∈ links', k.2.Proper Ref.Spellable (isIdentifier · = true) :=
      List.forall_mem_map.2 fun k hk => (hnode k hk).2.1
    rw [hchain] at hlower
    refine ⟨_, hlower, .chain hproper (List.forall_mem_map.2 haccepts) hproper', ?_, by simp⟩
    rw [simplify_links]
    refine htidy.simplifyChain (List.forall_mem_map.2 ?_)
      ⟨hproper.simplify, hproper.reduced_simplify⟩
      (List.forall_mem_map.2 fun k hk => (hproper' k hk).simplify)
    exact List.forall_mem_map.2 fun k hk => (hnode k hk).2.2.1
  | @unary ops ts e hops hoperand ih =>
    obtain ⟨n, hn, hproper, htidy, ho⟩ := ih (List.nil_suffix) fun t ht =>
      hts t (List.mem_append_right _ ht)
    obtain ⟨o, ho⟩ := ho rfl
    have hprefix : ∀ op ∈ ops.map (·.text), Operator.isPrefixSpelling op = true :=
      List.forall_mem_map.2 fun op hop => Operator.isPrefixSpelling_iff.2 ⟨op, hops op hop, rfl⟩
    refine ⟨_, lower_unary hprefix hn, .unary hprefix hproper, ?_, by simp⟩
    rw [simplify, ho]
    rw [ho] at htidy
    exact htidy.simplifyUnary
  | int n => exact ⟨_, rfl, .num _, .num _ _, fun _ => ⟨_, rfl⟩⟩
  | float v => exact ⟨_, rfl, .num v, .num _ v, fun _ => ⟨_, rfl⟩⟩
  | var name => exact ⟨_, rfl, .var (hts _ List.mem_cons_self), .var _ _, fun _ => ⟨_, rfl⟩⟩
  | @ref name idx hname hne hidx =>
    refine ⟨_, rfl, .ref ⟨hts _ List.mem_cons_self, hname, by simpa using hne, ?_⟩, .ref _ _,
      fun _ => ⟨_, rfl⟩⟩
    refine List.forall_mem_map.2 fun φ hφ => (hidx φ hφ).natAbs_lt fun t ht => hts t ?_
    simp [mem_listing hφ ht]
  | @call f args hf hne hargs ih =>
    have hrest : ∀ φ ∈ args, ∀ t ∈ φ.tokens, t.Lexical := fun φ hφ t ht =>
      hts t (by simp [mem_listing hφ ht])
    choose! node hnode using fun φ hφ => ih φ hφ (List.suffix_refl _) (hrest φ hφ)
    refine ⟨_, lower_call hf hne fun φ hφ => (hnode φ hφ).1,
      .call hf (by simpa using hne) (List.forall_mem_map.2 fun φ hφ => (hnode φ hφ).2.1), ?_,
      fun _ => ⟨_, rfl⟩⟩
    rw [simplify, simplifyList_eq_map]
    exact .call (List.forall_mem_map.2 (List.forall_mem_map.2 fun φ hφ => (hnode φ hφ).2.2.1))
  | @paren ts e he ih =>
    obtain ⟨n, hn, hproper, htidy, -⟩ := ih (List.suffix_refl _) fun t ht => hts t (by simp [ht])
    refine ⟨.operand (.paren n), by simp only [Expr.lower, hn]; rfl, .paren hproper, ?_,
      fun _ => ⟨_, rfl⟩⟩
    rw [simplify]
    have hsimple := hproper.simplify
    generalize n.simplify = m at htidy hsimple
    cases hsimple with
    | chain => exact .paren (by simp [Symbol.openLevels]) htidy
    | unary => exact .paren (by simp [Symbol.openLevels]) htidy
    | _ => exact htidy.operand_nil

end Surface

end GridSweep
