import GridSweep.Proofs.Surface.Grammar

/-!
# Derivation trees

A derivation of a program is a tree with a node for every rule of the grammar that it uses, and its
`phrase` is the tokens at its leaves with the program they stand for. Trees of expressions are
typed by the levels that are still open, so no level can be left out.

The trees are those of the relation `Derives` (`ExprTree.derives`, `Derives.exists_tree`), and no
two of them have the same tokens (`ProgramTree.phrase_inj`): where an expression ends is seen from
the token behind it.
-/

namespace GridSweep.Surface

/-! ## Trees -/

/-- An index, with a sign in front or without. -/
structure IndexTree where
  negative : Bool
  value : Nat

structure RefTree where
  name : String
  first : IndexTree
  more : List IndexTree

mutual

/-- An expression whose chains are on the given levels, the loosest first. Every level has a node,
also where its chain has no links. -/
inductive ExprTree : List Level → Type where
  | chain {l : Level} {ls : List Level} (first : ExprTree ls) (links : LinkTree l ls) :
    ExprTree (l :: ls)
  | unary (ops : List Operator) (hops : ∀ op ∈ ops, op ∈ Operator.prefixes)
    (operand : OperandTree) : ExprTree []

/-- Operators of a level, each with an operand behind it. -/
inductive LinkTree : Level → List Level → Type where
  | nil {l : Level} {ls : List Level} : LinkTree l ls
  | cons {l : Level} {ls : List Level} (op : Operator) (hop : op ∈ l.operators)
    (operand : ExprTree ls) (links : LinkTree l ls) : LinkTree l ls

/-- An operand. A function name with a parenthesis behind it is a call and no reference. -/
inductive OperandTree : Type where
  | int (n : Nat)
  | float (v : Binary64)
  | var (name : String)
  | ref (r : RefTree) (hname : r.name ∉ functionNames)
  | call (f : String) (hf : f ∈ functionNames) (first : ExprTree Level.all) (more : ArgTree)
  | paren (inner : ExprTree Level.all)

/-- The arguments after the first. -/
inductive ArgTree : Type where
  | nil
  | cons (arg : ExprTree Level.all) (more : ArgTree)

end

structure InputTree where
  name : String
  first : Nat
  more : List Nat

structure LetTree where
  name : String
  value : ExprTree Level.all

structure OutputTree where
  lets : List LetTree
  target : RefTree
  value : ExprTree Level.all

structure ProgramTree where
  iterate : Nat
  iterate_lt : iterate < 2 ^ 32
  kernelName : String
  partitions : Nat
  partitions_lt : partitions < 2 ^ 32
  input : InputTree
  inputs : List InputTree
  output : OutputTree

/-! ## Phrases -/

def IndexTree.phrase : IndexTree → Phrase Int
  | ⟨false, n⟩ => ⟨[.int n], n⟩
  | ⟨true, n⟩ => ⟨[.operator .minus, .int n], -n⟩

/-- Phrases in parentheses, with commas between them. -/
def tupleTokens {α : Type} (φs : List (Phrase α)) : List Token :=
  .lparen :: (listing φs ++ [.rparen])

def RefTree.indices (r : RefTree) : List (Phrase Int) := (r.first :: r.more).map (·.phrase)

def RefTree.phrase (r : RefTree) : Phrase Ref :=
  ⟨.ident r.name :: tupleTokens r.indices, ⟨r.name, r.indices.map (·.meaning)⟩⟩

mutual

def ExprTree.phrase : {ls : List Level} → ExprTree ls → Phrase Expr
  | _, @ExprTree.chain l _ first links =>
    ⟨first.phrase.tokens ++ links.phrases.flatMap fun k => .operator k.1 :: k.2.tokens,
      .binary l.rule (first.phrase.meaning :: links.phrases.map (·.2.meaning))
        (links.phrases.map (·.1.text))⟩
  | _, .unary ops _ operand =>
    ⟨ops.map .operator ++ operand.phrase.tokens,
      .unary (ops.map (·.text)) operand.phrase.meaning⟩

def LinkTree.phrases : {l : Level} → {ls : List Level} → LinkTree l ls →
    List (Operator × Phrase Expr)
  | _, _, .nil => []
  | _, _, .cons op _ operand links => (op, operand.phrase) :: links.phrases

def OperandTree.phrase : OperandTree → Phrase Expr
  | .int n => ⟨[.int n], .operand (.num (.ofNat n))⟩
  | .float v => ⟨[.float v], .operand (.num v)⟩
  | .var name => ⟨[.ident name], .operand (.var name)⟩
  | .ref r _ => ⟨r.phrase.tokens, .operand (.ref r.phrase.meaning)⟩
  | .call f _ first more =>
    let args := first.phrase :: more.phrases
    ⟨.ident f :: tupleTokens args, .operand (.call f (args.map (·.meaning)))⟩
  | .paren inner =>
    ⟨.lparen :: (inner.phrase.tokens ++ [.rparen]), .operand (.paren inner.phrase.meaning)⟩

def ArgTree.phrases : ArgTree → List (Phrase Expr)
  | .nil => []
  | .cons arg more => arg.phrase :: more.phrases

end

def InputTree.phrase (i : InputTree) : Phrase Input :=
  let sizes := i.first :: i.more
  ⟨.keyword .input :: .ident i.name :: tupleTokens (sizes.map fun n => ⟨[.int n], n⟩),
    ⟨i.name, sizes⟩⟩

def LetTree.phrase (b : LetTree) : Phrase (Binding Expr) :=
  ⟨.ident b.name :: .equals :: b.value.phrase.tokens, ⟨b.name, b.value.phrase.meaning⟩⟩

def OutputTree.phrase (o : OutputTree) : Phrase (Output Expr) :=
  ⟨.keyword .output :: (o.lets.flatMap (·.phrase.tokens) ++
      (o.target.phrase.tokens ++ .equals :: o.value.phrase.tokens)),
    ⟨o.target.phrase.meaning, o.lets.map (·.phrase.meaning), o.value.phrase.meaning⟩⟩

/-- The tokens of a program and the program they stand for. -/
def ProgramTree.phrase (d : ProgramTree) : Phrase Program :=
  let inputs := (d.input :: d.inputs).map (·.phrase)
  ⟨[.keyword .iterate, .colon, .int d.iterate, .keyword .kernel, .colon, .ident d.kernelName,
      .keyword .count, .colon, .int d.partitions] ++
      (inputs.flatMap (·.tokens) ++ d.output.phrase.tokens),
    ⟨d.iterate, d.kernelName, d.partitions, inputs.map (·.meaning), d.output.phrase.meaning⟩⟩

/-! ## Trees and the grammar -/

section

variable {l : Level} {ls : List Level}

theorem IndexTree.isIndex (d : IndexTree) : IsIndex d.phrase.tokens d.phrase.meaning := by
  obtain ⟨_ | _, n⟩ := d
  · exact .plain n
  · exact .negative n

theorem IsIndex.exists_tree {ts : List Token} {i : Int} (h : IsIndex ts i) :
    ∃ d : IndexTree, d.phrase = ⟨ts, i⟩ := by
  cases h with
  | plain n => exact ⟨⟨false, n⟩, rfl⟩
  | negative n => exact ⟨⟨true, n⟩, rfl⟩

mutual

theorem ExprTree.derives : {ls : List Level} → (d : ExprTree ls) →
    Derives (.levels ls) d.phrase.tokens d.phrase.meaning
  | _, .chain first links =>
    .chain first.derives (fun k hk => (links.derives k hk).1) fun k hk => (links.derives k hk).2
  | _, .unary _ hops operand => .unary hops operand.derives

theorem LinkTree.derives : {l : Level} → {ls : List Level} → (d : LinkTree l ls) →
    ∀ k ∈ d.phrases, k.1 ∈ l.operators ∧ Derives (.levels ls) k.2.tokens k.2.meaning
  | _, _, .nil => List.forall_mem_nil _
  | _, _, .cons _ hop operand links =>
    List.forall_mem_cons.2 ⟨⟨hop, operand.derives⟩, links.derives⟩

theorem OperandTree.derives : (d : OperandTree) →
    Derives .operand d.phrase.tokens d.phrase.meaning
  | .int n => .int n
  | .float v => .float v
  | .var name => .var name
  | .ref r hname => .ref hname (by simp [RefTree.indices])
      (List.forall_mem_map.2 fun i _ => i.isIndex)
  | .call _ hf first more =>
    .call hf (by simp) (List.forall_mem_cons.2 ⟨first.derives, more.derives⟩)
  | .paren inner => .paren inner.derives

theorem ArgTree.derives : (d : ArgTree) →
    ∀ φ ∈ d.phrases, Derives (.levels Level.all) φ.tokens φ.meaning
  | .nil => List.forall_mem_nil _
  | .cons arg more => List.forall_mem_cons.2 ⟨arg.derives, more.derives⟩

end

/-- The derivations of a phrase. -/
def Symbol.Tree : Symbol → Type
  | levels ls => ExprTree ls
  | operand => OperandTree

def Symbol.phrase : (s : Symbol) → s.Tree → Phrase Expr
  | levels _ => ExprTree.phrase
  | operand => OperandTree.phrase

theorem exists_linkTree {links : List (Operator × Phrase Expr)}
    (hops : ∀ k ∈ links, k.1 ∈ l.operators)
    (hlinks : ∀ k ∈ links, ∃ d : ExprTree ls, d.phrase = k.2) :
    ∃ d : LinkTree l ls, d.phrases = links := by
  induction links with
  | nil => exact ⟨.nil, rfl⟩
  | cons k links ih =>
    obtain ⟨hop, hops⟩ := List.forall_mem_cons.1 hops
    obtain ⟨⟨operand, hoperand⟩, hlinks⟩ := List.forall_mem_cons.1 hlinks
    obtain ⟨more, rfl⟩ := ih hops hlinks
    exact ⟨.cons k.1 hop operand more, by rw [LinkTree.phrases, hoperand]⟩

theorem exists_argTree {args : List (Phrase Expr)}
    (h : ∀ φ ∈ args, ∃ d : ExprTree Level.all, d.phrase = φ) :
    ∃ d : ArgTree, d.phrases = args := by
  induction args with
  | nil => exact ⟨.nil, rfl⟩
  | cons φ args ih =>
    obtain ⟨⟨arg, rfl⟩, hargs⟩ := List.forall_mem_cons.1 h
    obtain ⟨more, rfl⟩ := ih hargs
    exact ⟨.cons arg more, rfl⟩

/-- Phrases that have trees are the phrases of a list of trees. -/
theorem exists_map_phrase {α β : Type} {f : β → Phrase α} {φs : List (Phrase α)}
    (h : ∀ φ ∈ φs, ∃ d, f d = φ) : ∃ ds : List β, ds.map f = φs := by
  induction φs with
  | nil => exact ⟨[], rfl⟩
  | cons φ φs ih =>
    obtain ⟨⟨d, rfl⟩, hφs⟩ := List.forall_mem_cons.1 h
    obtain ⟨ds, rfl⟩ := ih hφs
    exact ⟨d :: ds, rfl⟩

theorem exists_refTree (name : String) {idx : List (Phrase Int)} (hne : idx ≠ [])
    (h : ∀ φ ∈ idx, IsIndex φ.tokens φ.meaning) :
    ∃ d : RefTree, d.name = name ∧ d.indices = idx := by
  obtain ⟨ds, rfl⟩ := exists_map_phrase fun φ hφ => (h φ hφ).exists_tree
  cases ds with
  | nil => exact absurd rfl hne
  | cons i is => exact ⟨⟨name, i, is⟩, rfl, rfl⟩

theorem Derives.exists_tree {s : Symbol} {ts : List Token} {e : Expr} (h : Derives s ts e) :
    ∃ d : s.Tree, s.phrase d = ⟨ts, e⟩ := by
  induction h with
  | @chain l ls first links _ hops _ ihfirst ihlinks =>
    obtain ⟨d, hd⟩ := ihfirst
    obtain ⟨ks, hks⟩ := exists_linkTree hops ihlinks
    refine ⟨ExprTree.chain d ks, ?_⟩
    change ExprTree.phrase _ = _ at hd
    simp only [Symbol.phrase, ExprTree.phrase, hd, hks]
  | unary hops _ ih =>
    obtain ⟨d, hd⟩ := ih
    change OperandTree.phrase _ = _ at hd
    exact ⟨ExprTree.unary _ hops d, by simp only [Symbol.phrase, ExprTree.phrase, hd]⟩
  | int n => exact ⟨OperandTree.int n, rfl⟩
  | float v => exact ⟨OperandTree.float v, rfl⟩
  | var name => exact ⟨OperandTree.var name, rfl⟩
  | @ref name idx hname hne hidx =>
    obtain ⟨d, rfl, rfl⟩ := exists_refTree name hne hidx
    exact ⟨OperandTree.ref d hname, rfl⟩
  | @call f args hf hne _ ih =>
    obtain ⟨d, rfl⟩ := exists_argTree ih
    cases d with
    | nil => exact absurd rfl hne
    | cons arg more => exact ⟨OperandTree.call f hf arg more, rfl⟩
  | paren _ ih =>
    obtain ⟨d, hd⟩ := ih
    change ExprTree.phrase _ = _ at hd
    exact ⟨OperandTree.paren d, by simp only [Symbol.phrase, OperandTree.phrase, hd]⟩

end

/-! ## One derivation for a text -/

open Parse

variable {l : Level} {ls : List Level} {r r' : List Token}

/-- Repeated items are told apart if each one is, given that an item or the end follows it, and the
end does not start like an item. -/
theorem flatMap_append_inj {β : Type} (f : β → List Token) (Stops : List Token → Prop)
    (hitem : ∀ x x' u u', (Stops u ∨ ∃ y v, u = f y ++ v) → (Stops u' ∨ ∃ y v, u' = f y ++ v) →
      f x ++ u = f x' ++ u' → x = x' ∧ u = u')
    (hstop : ∀ x u, ¬ Stops (f x ++ u)) (hr : Stops r) (hr' : Stops r') {xs xs' : List β}
    (h : xs.flatMap f ++ r = xs'.flatMap f ++ r') : xs = xs' ∧ r = r' := by
  have hfollows {r : List Token} (hr : Stops r) (xs : List β) :
      Stops (xs.flatMap f ++ r) ∨ ∃ y v, xs.flatMap f ++ r = f y ++ v := by
    cases xs with
    | nil => exact .inl hr
    | cons x xs => exact .inr ⟨x, xs.flatMap f ++ r, by simp⟩
  induction xs generalizing xs' with
  | nil =>
    cases xs' with
    | nil => exact ⟨rfl, h⟩
    | cons x' xs' =>
      simp only [List.flatMap_nil, List.nil_append, List.flatMap_cons, List.append_assoc] at h
      exact absurd (h ▸ hr) (hstop _ _)
  | cons x xs ih =>
    cases xs' with
    | nil =>
      simp only [List.flatMap_nil, List.nil_append, List.flatMap_cons, List.append_assoc] at h
      exact absurd (h ▸ hr') (hstop _ _)
    | cons x' xs' =>
      simp only [List.flatMap_cons, List.append_assoc] at h
      obtain ⟨rfl, hrest⟩ := hitem _ _ _ _ (hfollows hr xs) (hfollows hr' xs') h
      obtain ⟨rfl, rfl⟩ := ih hrest
      exact ⟨rfl, rfl⟩

theorem IndexTree.phrase_inj {d d' : IndexTree}
    (h : d.phrase.tokens ++ r = d'.phrase.tokens ++ r') : d = d' ∧ r = r' := by
  obtain ⟨_ | _, n⟩ := d <;> obtain ⟨_ | _, n'⟩ := d' <;> simp_all [IndexTree.phrase]

/-- Items in parentheses whose tokens tell them apart. -/
theorem tuple_append_inj {α β : Type} {f : β → Phrase α}
    (hitem : ∀ {x x' u u'}, (f x).tokens ++ u = (f x').tokens ++ u' → x = x' ∧ u = u')
    {x x' : β} {xs xs' : List β}
    (h : tupleTokens ((x :: xs).map f) ++ r = tupleTokens ((x' :: xs').map f) ++ r') :
    x = x' ∧ xs = xs' ∧ r = r' := by
  simp only [tupleTokens, List.map_cons, listing, List.flatMap_map, List.cons_append,
    List.append_assoc, List.cons.injEq, true_and, List.nil_append] at h
  obtain ⟨rfl, hmore⟩ := hitem h
  obtain ⟨rfl, hend⟩ := flatMap_append_inj (fun x => .comma :: (f x).tokens)
    (·.head? = some .rparen) (fun _ _ _ _ _ _ h => hitem (List.cons.inj h).2) (by simp) rfl rfl
    hmore
  exact ⟨rfl, rfl, (List.cons.inj hend).2⟩

theorem RefTree.phrase_inj {d d' : RefTree} (h : d.phrase.tokens ++ r = d'.phrase.tokens ++ r') :
    d = d' ∧ r = r' := by
  obtain ⟨hname, h⟩ := List.cons.inj h
  obtain ⟨hfirst, hmore, rfl⟩ := tuple_append_inj IndexTree.phrase_inj h
  cases d
  cases d'
  simp_all

/-- An operand does not start with an operator. -/
theorem OperandTree.head_phrase (d : OperandTree) (r : List Token) :
    ∀ op, (d.phrase.tokens ++ r).head? ≠ some (.operator op) := by
  cases d <;> simp [OperandTree.phrase, RefTree.phrase, tupleTokens]

theorem operators_append_inj {ops ops' : List Operator} (hr : ∀ op, r.head? ≠ some (.operator op))
    (hr' : ∀ op, r'.head? ≠ some (.operator op))
    (h : ops.map .operator ++ r = ops'.map .operator ++ r') : ops = ops' ∧ r = r' := by
  refine flatMap_append_inj (fun op => [.operator op])
    (fun u => ∀ op, u.head? ≠ some (.operator op)) (fun _ _ _ _ _ _ h => ?_) (by simp) hr hr' ?_
  · simpa using h
  · rwa [← List.map_eq_flatMap, ← List.map_eq_flatMap]

theorem LinkTree.ends_phrases (hl : l ∉ ls) (links : LinkTree l ls) (hr : Ends (l :: ls) r.head?) :
    Ends ls ((links.phrases.flatMap fun k => .operator k.1 :: k.2.tokens) ++ r).head? := by
  cases links with
  | nil => exact hr.of_cons
  | cons op hop operand links => exact ends_operator hl hop

theorem ArgTree.endsItem_phrases (args : ArgTree) (r : List Token) :
    EndsItem ((args.phrases.flatMap fun φ => .comma :: φ.tokens) ++ .rparen :: r).head? := by
  cases args with
  | nil => exact .inr rfl
  | cons arg more => exact .inl rfl

mutual

/-- The tokens of an expression have one derivation, and where it ends is seen from the next
token. -/
theorem ExprTree.phrase_inj : {ls : List Level} → (d d' : ExprTree ls) → {r r' : List Token} →
    ls.Nodup → Ends ls r.head? → Ends ls r'.head? →
    d.phrase.tokens ++ r = d'.phrase.tokens ++ r' → d = d' ∧ r = r'
  | _, .chain first links, .chain first' links', _, _, hls, hr, hr', h => by
    obtain ⟨hl, hls⟩ := List.nodup_cons.1 hls
    simp only [ExprTree.phrase, List.append_assoc] at h
    obtain ⟨hfirst, h⟩ := first.phrase_inj first' hls (links.ends_phrases hl hr)
      (links'.ends_phrases hl hr') h
    obtain ⟨hlinks, h⟩ := links.phrases_inj links' hl hls hr hr' h
    exact ⟨by rw [hfirst, hlinks], h⟩
  | _, .unary ops _ operand, .unary ops' _ operand', r, r', _, hr, hr', h => by
    simp only [ExprTree.phrase, List.append_assoc] at h
    obtain ⟨hops, h⟩ := operators_append_inj (operand.head_phrase r) (operand'.head_phrase r') h
    obtain ⟨hoperand, h⟩ := operand.phrase_inj operand' hr hr' h
    refine ⟨?_, h⟩
    subst hops hoperand
    rfl
  termination_by structural _ d => d

theorem LinkTree.phrases_inj : {l : Level} → {ls : List Level} → (d d' : LinkTree l ls) →
    {r r' : List Token} → l ∉ ls → ls.Nodup → Ends (l :: ls) r.head? → Ends (l :: ls) r'.head? →
    (d.phrases.flatMap fun k => .operator k.1 :: k.2.tokens) ++ r =
      (d'.phrases.flatMap fun k => .operator k.1 :: k.2.tokens) ++ r' → d = d' ∧ r = r'
  | _, _, .nil, .nil, _, _, _, _, _, _, h => ⟨rfl, h⟩
  | l, _, .nil, .cons op' hop' _ _, _, _, _, _, hr, _, h =>
    absurd (congrArg List.head? h) (hr.2 l List.mem_cons_self op' hop')
  | l, _, .cons op hop _ _, .nil, _, _, _, _, _, hr', h =>
    absurd (congrArg List.head? h).symm (hr'.2 l List.mem_cons_self op hop)
  | _, _, .cons op _ operand links, .cons op' _ operand' links', _, _, hl, hls, hr, hr', h => by
    simp only [LinkTree.phrases, List.flatMap_cons, List.cons_append, List.append_assoc,
      List.cons.injEq, Token.operator.injEq] at h
    obtain ⟨hop, h⟩ := h
    obtain ⟨hoperand, h⟩ := operand.phrase_inj operand' hls (links.ends_phrases hl hr)
      (links'.ends_phrases hl hr') h
    obtain ⟨hlinks, h⟩ := links.phrases_inj links' hl hls hr hr' h
    refine ⟨?_, h⟩
    subst hop hoperand hlinks
    rfl
  termination_by structural _ _ d => d

theorem OperandTree.phrase_inj : (d d' : OperandTree) → {r r' : List Token} → Ends [] r.head? →
    Ends [] r'.head? → d.phrase.tokens ++ r = d'.phrase.tokens ++ r' → d = d' ∧ r = r'
  | .int n, d', _, _, _, _, h => by
    cases d' with
    | int n' => simpa [OperandTree.phrase] using h
    | float | var | ref | call | paren => simp [OperandTree.phrase, RefTree.phrase] at h
  | .float v, d', _, _, _, _, h => by
    cases d' with
    | float v' => simpa [OperandTree.phrase] using h
    | int | var | ref | call | paren => simp [OperandTree.phrase, RefTree.phrase] at h
  | .var name, d', _, _, hr, _, h => by
    cases d' with
    | var name' => simpa [OperandTree.phrase] using h
    | ref | call => exact absurd (congrArg List.head? (List.cons.inj h).2) hr.1
    | int | float | paren => simp [OperandTree.phrase] at h
  | .ref x hname, d', _, _, _, hr', h => by
    cases d' with
    | ref x' hname' =>
      obtain ⟨rfl, hrest⟩ := RefTree.phrase_inj h
      exact ⟨rfl, hrest⟩
    | call f' hf' => exact absurd (Token.ident.inj (List.cons.inj h).1 ▸ hf') hname
    | var => exact absurd (congrArg List.head? (List.cons.inj h).2).symm hr'.1
    | int | float | paren => simp [OperandTree.phrase, RefTree.phrase] at h
  | .call f hf first more, d', r, r', _, hr', h => by
    cases d' with
    | call f' hf' first' more' =>
      simp only [OperandTree.phrase, tupleTokens, listing, List.cons_append, List.append_assoc,
        List.cons.injEq, Token.ident.injEq, true_and, List.nil_append] at h
      obtain ⟨hname, h⟩ := h
      obtain ⟨hfirst, h⟩ := first.phrase_inj first' nodup_all
        (ends_of_endsItem (more.endsItem_phrases r))
        (ends_of_endsItem (more'.endsItem_phrases r')) h
      obtain ⟨hmore, h⟩ := more.phrases_inj more' h
      refine ⟨?_, h⟩
      subst hname hfirst hmore
      rfl
    | ref x' hname' => exact absurd (Token.ident.inj (List.cons.inj h).1 ▸ hf) hname'
    | var => exact absurd (congrArg List.head? (List.cons.inj h).2).symm hr'.1
    | int | float | paren => simp [OperandTree.phrase] at h
  | .paren inner, d', r, r', _, _, h => by
    cases d' with
    | paren inner' =>
      simp only [OperandTree.phrase, List.cons_append, List.append_assoc, List.cons.injEq,
        true_and, List.nil_append] at h
      have hclose (r : List Token) : Ends Level.all (Token.rparen :: r).head? :=
        ends_of_endsItem (.inr rfl)
      obtain ⟨hinner, h⟩ := inner.phrase_inj inner' nodup_all (hclose r) (hclose r') h
      exact ⟨by rw [hinner], (List.cons.inj h).2⟩
    | int | float | var | ref | call => simp [OperandTree.phrase, RefTree.phrase] at h
  termination_by structural d => d

theorem ArgTree.phrases_inj : (d d' : ArgTree) → {r r' : List Token} →
    (d.phrases.flatMap fun φ => .comma :: φ.tokens) ++ .rparen :: r =
      (d'.phrases.flatMap fun φ => .comma :: φ.tokens) ++ .rparen :: r' → d = d' ∧ r = r'
  | .nil, .nil, _, _, h => ⟨rfl, (List.cons.inj h).2⟩
  | .nil, .cons _ _, _, _, h => by simp [ArgTree.phrases] at h
  | .cons _ _, .nil, _, _, h => by simp [ArgTree.phrases] at h
  | .cons arg more, .cons arg' more', r, r', h => by
    simp only [ArgTree.phrases, List.flatMap_cons, List.cons_append, List.append_assoc,
      List.cons.injEq, true_and] at h
    obtain ⟨harg, h⟩ := arg.phrase_inj arg' nodup_all (ends_of_endsItem (more.endsItem_phrases r))
      (ends_of_endsItem (more'.endsItem_phrases r')) h
    obtain ⟨hmore, h⟩ := more.phrases_inj more' h
    exact ⟨by rw [harg, hmore], h⟩
  termination_by structural d => d

end

/-! ## Statements -/

theorem InputTree.phrase_inj {d d' : InputTree}
    (h : d.phrase.tokens ++ r = d'.phrase.tokens ++ r') : d = d' ∧ r = r' := by
  obtain ⟨hname, h⟩ := List.cons.inj (List.cons.inj h).2
  obtain ⟨hfirst, hmore, h⟩ := tuple_append_inj (fun h => by simpa using h) h
  cases d
  cases d'
  simp_all

/-- The next token is a name, or there is none: neither goes on with an expression. -/
theorem ends_ident (name : String) : Ends Level.all (some (.ident name)) := ⟨by simp, by simp⟩

theorem ends_none : Ends Level.all none := ⟨by simp, by simp⟩

theorem LetTree.phrase_inj {d d' : LetTree} (hr : Ends Level.all r.head?)
    (hr' : Ends Level.all r'.head?) (h : d.phrase.tokens ++ r = d'.phrase.tokens ++ r') :
    d = d' ∧ r = r' := by
  obtain ⟨hname, h⟩ := List.cons.inj h
  obtain ⟨hvalue, h⟩ := d.value.phrase_inj d'.value nodup_all hr hr' (List.cons.inj h).2
  cases d
  cases d'
  simp_all

theorem OutputTree.phrase_inj {d d' : OutputTree} (h : d.phrase.tokens = d'.phrase.tokens) :
    d = d' := by
  -- the bindings end at a name with a parenthesis behind it
  let Stops (u : List Token) : Prop := ∃ name v, u = .ident name :: .lparen :: v
  have hends {u : List Token} (h : Stops u ∨ ∃ (b : LetTree) (v : _), u = b.phrase.tokens ++ v) :
      Ends Level.all u.head? := by
    rcases h with ⟨name, v, rfl⟩ | ⟨b, v, rfl⟩ <;> exact ends_ident _
  have hstops (x : RefTree) (u : List Token) : Stops (x.phrase.tokens ++ u) := ⟨x.name, _, rfl⟩
  obtain ⟨hlets, h⟩ := flatMap_append_inj (fun b : LetTree => b.phrase.tokens) Stops
    (fun _ _ _ _ hu hu' h => LetTree.phrase_inj (hends hu) (hends hu') h)
    (by rintro b u ⟨name, v, hv⟩; simp [LetTree.phrase] at hv)
    (hstops d.target _) (hstops d'.target _) (List.cons.inj h).2
  obtain ⟨htarget, h⟩ := RefTree.phrase_inj h
  have hend : Ends Level.all ([] : List Token).head? := ends_none
  obtain ⟨hvalue, -⟩ := d.value.phrase_inj d'.value nodup_all hend hend (by simpa using h)
  cases d
  cases d'
  simp_all

/-- The tokens of a program have one derivation. -/
theorem ProgramTree.phrase_inj {d d' : ProgramTree} (h : d.phrase.tokens = d'.phrase.tokens) :
    d = d' := by
  simp only [ProgramTree.phrase, List.cons_append, List.cons.injEq, true_and, Token.int.injEq,
    Token.ident.injEq, List.nil_append, List.flatMap_map] at h
  obtain ⟨hiterate, hkernel, hpartitions, h⟩ := h
  obtain ⟨hinputs, h⟩ := flatMap_append_inj (fun i : InputTree => i.phrase.tokens)
    (·.head? = some (.keyword .output)) (fun _ _ _ _ _ _ h => InputTree.phrase_inj h)
    (by simp [InputTree.phrase]) rfl rfl h
  have houtput := OutputTree.phrase_inj h
  cases d
  cases d'
  simp_all

end GridSweep.Surface
