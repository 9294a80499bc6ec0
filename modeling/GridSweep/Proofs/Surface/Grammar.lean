import GridSweep.Proofs.Surface.Running

/-!
# The grammar of expressions

`Derives` is the grammar of expressions: it relates the tokens of a phrase to the tree they stand
for. The parser returns only trees that the grammar derives from the tokens it consumes
(`derives_of_returns`), and where the next token cannot go on with the phrase it returns every such
tree (`returns_of_derives`).
-/

namespace GridSweep

/-- Every binary operator stands on one level. -/
theorem Level.eq_of_mem_operators {l l' : Level} {op : Operator} (h : op ∈ l.operators)
    (h' : op ∈ l'.operators) : l = l' := by
  cases l <;> cases l' <;> grind [Level.operators]

namespace Surface

/-- Tokens and what they stand for. -/
structure Phrase (α : Type) where
  tokens : List Token
  meaning : α

/-- The tokens of phrases with commas between them. -/
def listing {α : Type} : List (Phrase α) → List Token
  | [] => []
  | φ :: φs => φ.tokens ++ φs.flatMap fun ψ => .comma :: ψ.tokens

/-- An index with its sign. -/
inductive IsIndex : List Token → Int → Prop where
  | plain (n : Nat) : IsIndex [.int n] n
  | negative (n : Nat) : IsIndex [.operator .minus, .int n] (-n)

/-- What a phrase of an expression is: chains on the given levels, the loosest first, with prefix
operators below them; or an operand. -/
inductive Symbol where
  | levels (ls : List Level)
  | operand

inductive Derives : Symbol → List Token → Expr → Prop where
  /-- The first operand and then operators of the level, each with an operand behind it. -/
  | chain {l : Level} {ls : List Level} {first : Phrase Expr}
    {links : List (Operator × Phrase Expr)} :
    Derives (.levels ls) first.tokens first.meaning → (∀ k ∈ links, k.1 ∈ l.operators) →
    (∀ k ∈ links, Derives (.levels ls) k.2.tokens k.2.meaning) →
    Derives (.levels (l :: ls))
      (first.tokens ++ links.flatMap fun k => .operator k.1 :: k.2.tokens)
      (.binary l.rule (first.meaning :: links.map (·.2.meaning)) (links.map (·.1.text)))
  | unary {ops : List Operator} {ts : List Token} {e : Expr} :
    (∀ op ∈ ops, op ∈ Operator.prefixes) → Derives .operand ts e →
    Derives (.levels []) (ops.map .operator ++ ts) (.unary (ops.map (·.text)) e)
  | int (n : Nat) : Derives .operand [.int n] (.operand (.num (.ofNat n)))
  | float (v : Binary64) : Derives .operand [.float v] (.operand (.num v))
  | var (name : String) : Derives .operand [.ident name] (.operand (.var name))
  | ref {name : String} {idx : List (Phrase Int)} : name ∉ functionNames → idx ≠ [] →
    (∀ φ ∈ idx, IsIndex φ.tokens φ.meaning) →
    Derives .operand (.ident name :: .lparen :: (listing idx ++ [.rparen]))
      (.operand (.ref ⟨name, idx.map (·.meaning)⟩))
  | call {f : String} {args : List (Phrase Expr)} : f ∈ functionNames → args ≠ [] →
    (∀ φ ∈ args, Derives (.levels Level.all) φ.tokens φ.meaning) →
    Derives .operand (.ident f :: .lparen :: (listing args ++ [.rparen]))
      (.operand (.call f (args.map (·.meaning))))
  | paren {ts : List Token} {e : Expr} : Derives (.levels Level.all) ts e →
    Derives .operand (.lparen :: (ts ++ [.rparen])) (.operand (.paren e))

namespace Parse

open Surface.Parser

variable {α : Type} {f : Parse α} {p p' : Parser} {a : α} {e : Expr} {ts : List Token} {fuel : Nat}
  {R : List Token → α → Prop}

/-! ## Single tokens -/

theorem returns_expect {t : Token} {u : Unit} : Returns (expect t) p u p' ↔ Consumes p [t] p' := by
  simp only [expect, returns_bind, returns_current, consumes_cons_iff, consumes_nil_iff]
  constructor
  · rintro ⟨_, _, ⟨rfl, rfl⟩, h⟩
    split at h
    · next ht => exact ⟨ht, p', returns_advance.1 h, rfl⟩
    · exact absurd h not_returns_fail
  · rintro ⟨ht, q, hq, rfl⟩
    exact ⟨_, _, ⟨rfl, rfl⟩, by rw [if_pos ht]; exact returns_advance.2 hq⟩

theorem returns_expectInt {n : Nat} : Returns expectInt p n p' ↔ Consumes p [.int n] p' := by
  simp only [expectInt, returns_bind, returns_current, consumes_cons_iff, consumes_nil_iff]
  constructor
  · rintro ⟨_, _, ⟨rfl, rfl⟩, h⟩
    split at h
    · next m hm =>
      obtain ⟨_, q, hq, h⟩ := returns_bind.1 h
      obtain ⟨rfl, rfl⟩ := returns_pure.1 h
      exact ⟨hm, p', returns_advance.1 hq, rfl⟩
    · exact absurd h not_returns_fail
  · rintro ⟨ht, q, hq, rfl⟩
    refine ⟨_, _, ⟨rfl, rfl⟩, ?_⟩
    rw [ht]
    exact returns_bind.2 ⟨(), p', returns_advance.2 hq, returns_pure.2 ⟨rfl, rfl⟩⟩

theorem returns_expectIndex {i : Int} :
    Returns expectIndex p i p' ↔ ∃ ts, IsIndex ts i ∧ Consumes p ts p' := by
  simp only [expectIndex, returns_bind, returns_current]
  constructor
  · rintro ⟨_, _, ⟨rfl, rfl⟩, h⟩
    split at h
    · next hminus =>
      obtain ⟨_, q, hq, h⟩ := returns_bind.1 h
      obtain ⟨n, q', hn, h⟩ := returns_bind.1 h
      obtain ⟨rfl, rfl⟩ := returns_pure.1 h
      exact ⟨_, .negative n, .cons hminus (returns_advance.1 hq) (returns_expectInt.1 hn)⟩
    · obtain ⟨n, q', hn, h⟩ := returns_bind.1 h
      obtain ⟨rfl, rfl⟩ := returns_pure.1 h
      exact ⟨_, .plain n, returns_expectInt.1 hn⟩
  · rintro ⟨ts, hindex, h⟩
    refine ⟨_, _, ⟨rfl, rfl⟩, ?_⟩
    cases hindex with
    | plain n =>
      have hcurrent := (consumes_cons_iff.1 h).1
      rw [if_neg (by simp [hcurrent])]
      exact returns_bind.2 ⟨n, p', returns_expectInt.2 h, returns_pure.2 ⟨rfl, rfl⟩⟩
    | negative n =>
      obtain ⟨hcurrent, q, hq, h⟩ := consumes_cons_iff.1 h
      rw [if_pos hcurrent]
      exact returns_bind.2 ⟨(), q, returns_advance.2 hq,
        returns_bind.2 ⟨n, p', returns_expectInt.2 h, returns_pure.2 ⟨rfl, rfl⟩⟩⟩

/-! ## Lists -/

theorem moreItems_sound (hitem : ∀ p a p', Returns f p a p' → ∃ ts, R ts a ∧ Consumes p ts p')
    {as : List α} (h : Returns (moreItems f fuel) p as p') :
    ∃ φs : List (Phrase α), as = φs.map (·.meaning) ∧ (∀ φ ∈ φs, R φ.tokens φ.meaning) ∧
      Consumes p (φs.flatMap fun φ => .comma :: φ.tokens) p' := by
  induction fuel generalizing p as with
  | zero =>
    obtain ⟨rfl, rfl⟩ := returns_pure.1 h
    exact ⟨[], rfl, by simp, .nil _⟩
  | succ fuel ih =>
    replace h := returns_current_bind.1 h
    split at h
    · next hcomma =>
      obtain ⟨_, q, hq, h⟩ := returns_bind.1 h
      obtain ⟨a, q', ha, h⟩ := returns_bind.1 h
      obtain ⟨as', q'', has, h⟩ := returns_bind.1 h
      obtain ⟨rfl, rfl⟩ := returns_pure.1 h
      obtain ⟨ts, hR, hts⟩ := hitem _ _ _ ha
      obtain ⟨φs, rfl, hφs, hrest⟩ := ih has
      refine ⟨⟨ts, a⟩ :: φs, rfl, List.forall_mem_cons.2 ⟨hR, hφs⟩, ?_⟩
      exact .cons hcomma (returns_advance.1 hq) (hts.append hrest)
    · obtain ⟨rfl, rfl⟩ := returns_pure.1 h
      exact ⟨[], rfl, by simp, .nil _⟩

theorem tuple_sound (hitem : ∀ p a p', Returns f p a p' → ∃ ts, R ts a ∧ Consumes p ts p')
    {as : List α} (h : Returns (tuple fuel f) p as p') :
    ∃ φs : List (Phrase α), as = φs.map (·.meaning) ∧ φs ≠ [] ∧ (∀ φ ∈ φs, R φ.tokens φ.meaning) ∧
      Consumes p (.lparen :: (listing φs ++ [.rparen])) p' := by
  obtain ⟨_, q, hopen, h⟩ := returns_bind.1 h
  obtain ⟨as', q', hitems, h⟩ := returns_bind.1 h
  obtain ⟨_, q'', hclose, h⟩ := returns_bind.1 h
  obtain ⟨rfl, rfl⟩ := returns_pure.1 h
  obtain ⟨a, r, ha, hitems⟩ := returns_bind.1 hitems
  obtain ⟨as, r', has, hitems⟩ := returns_bind.1 hitems
  obtain ⟨rfl, rfl⟩ := returns_pure.1 hitems
  obtain ⟨ts, hR, hts⟩ := hitem _ _ _ ha
  obtain ⟨φs, rfl, hφs, hrest⟩ := moreItems_sound hitem has
  refine ⟨⟨ts, a⟩ :: φs, rfl, by simp, List.forall_mem_cons.2 ⟨hR, hφs⟩, ?_⟩
  exact (returns_expect.1 hopen).append ((hts.append hrest).append (returns_expect.1 hclose))

/-- The token behind an item of a list. -/
def EndsItem (t : Option Token) : Prop := t = some .comma ∨ t = some .rparen

theorem moreItems_complete {φs : List (Phrase α)}
    (hitem : ∀ φ ∈ φs, ∀ p p', Consumes p φ.tokens p' → EndsItem p'.current →
      Returns f p φ.meaning p')
    (hfuel : φs.length ≤ fuel) (h : Consumes p (φs.flatMap fun φ => .comma :: φ.tokens) p')
    (hend : p'.current = some .rparen) :
    Returns (moreItems f fuel) p (φs.map (·.meaning)) p' := by
  induction φs generalizing p fuel with
  | nil =>
    obtain rfl := consumes_nil_iff.1 h
    cases fuel with
    | zero => exact returns_pure.2 ⟨rfl, rfl⟩
    | succ fuel =>
      refine returns_current_bind.2 ?_
      rw [if_neg (by simp [hend])]
      exact returns_pure.2 ⟨rfl, rfl⟩
  | cons φ φs ih =>
    obtain ⟨fuel, rfl⟩ : ∃ k, fuel = k + 1 := ⟨fuel - 1, by simp at hfuel; omega⟩
    obtain ⟨hitem, hitems⟩ := List.forall_mem_cons.1 hitem
    rw [List.flatMap_cons, List.cons_append] at h
    obtain ⟨hcomma, q, hq, h⟩ := consumes_cons_iff.1 h
    obtain ⟨q', hφ, h⟩ := consumes_append_iff.1 h
    have hnext : EndsItem q'.current := by
      cases φs with
      | nil =>
        obtain rfl := consumes_nil_iff.1 h
        exact .inr hend
      | cons ψ φs => exact .inl (consumes_cons_iff.1 h).1
    refine returns_current_bind.2 ?_
    rw [if_pos hcomma]
    refine returns_bind.2 ⟨(), q, returns_advance.2 hq, ?_⟩
    refine returns_bind.2 ⟨_, q', hitem _ _ hφ hnext, ?_⟩
    exact returns_bind.2 ⟨_, p', ih hitems (by simpa using hfuel) h, returns_pure.2 ⟨rfl, rfl⟩⟩

theorem tuple_complete {φs : List (Phrase α)} (hne : φs ≠ [])
    (hitem : ∀ φ ∈ φs, ∀ p p', Consumes p φ.tokens p' → EndsItem p'.current →
      Returns f p φ.meaning p')
    (hfuel : φs.length ≤ fuel + 1) (h : Consumes p (.lparen :: (listing φs ++ [.rparen])) p') :
    Returns (tuple fuel f) p (φs.map (·.meaning)) p' := by
  obtain ⟨φ, φs, rfl⟩ := List.exists_cons_of_ne_nil hne
  obtain ⟨hitem, hitems⟩ := List.forall_mem_cons.1 hitem
  obtain ⟨hopen, q, hq, h⟩ := consumes_cons_iff.1 h
  obtain ⟨q', hlist, hclose⟩ := consumes_append_iff.1 h
  obtain ⟨r, hφ, hmore⟩ := consumes_append_iff.1 hlist
  have hend := (consumes_cons_iff.1 hclose).1
  have hnext : EndsItem r.current := by
    cases φs with
    | nil =>
      obtain rfl := consumes_nil_iff.1 hmore
      exact .inr hend
    | cons ψ φs => exact .inl (consumes_cons_iff.1 hmore).1
  refine returns_bind.2 ⟨(), q, returns_expect.2 (.single hopen hq), ?_⟩
  refine returns_bind.2 ⟨_, q', ?_, returns_bind.2 ⟨(), p', returns_expect.2 hclose,
    returns_pure.2 ⟨rfl, rfl⟩⟩⟩
  exact returns_bind.2 ⟨_, r, hitem _ _ hφ hnext, returns_bind.2 ⟨_, q',
    moreItems_complete hitems (by simpa using hfuel) hmore hend, returns_pure.2 ⟨rfl, rfl⟩⟩⟩

/-! ## Soundness -/

theorem moreOperands_sound {l : Level} {f : Parse Expr} {R : List Token → Expr → Prop}
    (hoperand : ∀ p e p', Returns f p e p' → ∃ ts, R ts e ∧ Consumes p ts p')
    {ks : List (String × Expr)} (h : Returns (moreOperands l f fuel) p ks p') :
    ∃ links : List (Operator × Phrase Expr), ks = links.map (fun k => (k.1.text, k.2.meaning)) ∧
      (∀ k ∈ links, k.1 ∈ l.operators) ∧ (∀ k ∈ links, R k.2.tokens k.2.meaning) ∧
      Consumes p (links.flatMap fun k => .operator k.1 :: k.2.tokens) p' := by
  induction fuel generalizing p ks with
  | zero =>
    obtain ⟨rfl, rfl⟩ := returns_pure.1 h
    exact ⟨[], rfl, by simp, by simp, .nil _⟩
  | succ fuel ih =>
    replace h := returns_current_bind.1 h
    split at h
    · next op hop =>
      split at h
      · next hmem =>
        obtain ⟨_, q, hq, h⟩ := returns_bind.1 h
        obtain ⟨e, q', he, h⟩ := returns_bind.1 h
        obtain ⟨ks', q'', hks, h⟩ := returns_bind.1 h
        obtain ⟨rfl, rfl⟩ := returns_pure.1 h
        obtain ⟨ts, hR, hts⟩ := hoperand _ _ _ he
        obtain ⟨links, rfl, hops, hlinks, hrest⟩ := ih hks
        refine ⟨(op, ⟨ts, e⟩) :: links, rfl, List.forall_mem_cons.2 ⟨hmem, hops⟩,
          List.forall_mem_cons.2 ⟨hR, hlinks⟩, ?_⟩
        exact .cons hop (returns_advance.1 hq) (hts.append hrest)
      · obtain ⟨rfl, rfl⟩ := returns_pure.1 h
        exact ⟨[], rfl, by simp, by simp, .nil _⟩
    · obtain ⟨rfl, rfl⟩ := returns_pure.1 h
      exact ⟨[], rfl, by simp, by simp, .nil _⟩

theorem levels_sound {f : Parse Expr} {ls : List Level}
    (hoperand : ∀ p e p', Returns f p e p' → ∃ ts, Derives (.levels []) ts e ∧ Consumes p ts p')
    (h : Returns (levels fuel f ls) p e p') :
    ∃ ts, Derives (.levels ls) ts e ∧ Consumes p ts p' := by
  induction ls generalizing p e p' with
  | nil => exact hoperand _ _ _ h
  | cons l ls ih =>
    obtain ⟨first, q, hfirst, h⟩ := returns_bind.1 h
    obtain ⟨ks, q', hks, h⟩ := returns_bind.1 h
    obtain ⟨rfl, rfl⟩ := returns_pure.1 h
    obtain ⟨ts, hderives, hts⟩ := ih hfirst
    obtain ⟨links, rfl, hops, hlinks, hrest⟩ := moreOperands_sound (fun _ _ _ => ih) hks
    refine ⟨_, ?_, hts.append hrest⟩
    simpa [Function.comp_def] using @Derives.chain l ls ⟨ts, first⟩ links hderives hops hlinks

theorem prefixOperators_sound {ops : List String} (h : Returns (prefixOperators fuel) p ops p') :
    ∃ os : List Operator, ops = os.map (·.text) ∧ (∀ op ∈ os, op ∈ Operator.prefixes) ∧
      Consumes p (os.map .operator) p' := by
  induction fuel generalizing p ops with
  | zero =>
    obtain ⟨rfl, rfl⟩ := returns_pure.1 h
    exact ⟨[], rfl, by simp, .nil _⟩
  | succ fuel ih =>
    replace h := returns_current_bind.1 h
    split at h
    · next op hop =>
      split at h
      · next hmem =>
        obtain ⟨_, q, hq, h⟩ := returns_bind.1 h
        obtain ⟨ops', q', hops, h⟩ := returns_bind.1 h
        obtain ⟨rfl, rfl⟩ := returns_pure.1 h
        obtain ⟨os, rfl, hos, hrest⟩ := ih hops
        exact ⟨op :: os, rfl, List.forall_mem_cons.2 ⟨hmem, hos⟩,
          .cons hop (returns_advance.1 hq) hrest⟩
      · obtain ⟨rfl, rfl⟩ := returns_pure.1 h
        exact ⟨[], rfl, by simp, .nil _⟩
    · obtain ⟨rfl, rfl⟩ := returns_pure.1 h
      exact ⟨[], rfl, by simp, .nil _⟩

theorem unary_sound {f : Parse Expr}
    (hoperand : ∀ p e p', Returns f p e p' → ∃ ts, Derives .operand ts e ∧ Consumes p ts p')
    (h : Returns (unary fuel f) p e p') :
    ∃ ts, Derives (.levels []) ts e ∧ Consumes p ts p' := by
  obtain ⟨ops, q, hops, h⟩ := returns_bind.1 h
  obtain ⟨o, q', ho, h⟩ := returns_bind.1 h
  obtain ⟨rfl, rfl⟩ := returns_pure.1 h
  obtain ⟨os, rfl, hos, hprefix⟩ := prefixOperators_sound hops
  obtain ⟨ts, hderives, hts⟩ := hoperand _ _ _ ho
  exact ⟨_, .unary hos hderives, hprefix.append hts⟩

theorem operand_sound {f : Parse Expr}
    (hexpr : ∀ p e p', Returns f p e p' →
      ∃ ts, Derives (.levels Level.all) ts e ∧ Consumes p ts p')
    (h : Returns (operand fuel f) p e p') : ∃ ts, Derives .operand ts e ∧ Consumes p ts p' := by
  replace h := returns_current_bind.1 h
  split at h
  · next n hn =>
    obtain ⟨_, q, hq, h⟩ := returns_bind.1 h
    obtain ⟨rfl, rfl⟩ := returns_pure.1 h
    exact ⟨_, .int n, .single hn (returns_advance.1 hq)⟩
  · next v hv =>
    obtain ⟨_, q, hq, h⟩ := returns_bind.1 h
    obtain ⟨rfl, rfl⟩ := returns_pure.1 h
    exact ⟨_, .float v, .single hv (returns_advance.1 hq)⟩
  · next name hname =>
    obtain ⟨_, q, hq, h⟩ := returns_bind.1 h
    replace h := returns_current_bind.1 h
    split at h
    · obtain ⟨rfl, rfl⟩ := returns_pure.1 h
      exact ⟨_, .var name, .single hname (returns_advance.1 hq)⟩
    split at h
    · next hfunction =>
      obtain ⟨as, q', has, h⟩ := returns_bind.1 h
      obtain ⟨rfl, rfl⟩ := returns_pure.1 h
      obtain ⟨φs, rfl, hne, hφs, hts⟩ := tuple_sound hexpr has
      exact ⟨_, .call hfunction hne hφs, .cons hname (returns_advance.1 hq) hts⟩
    · next hfunction =>
      obtain ⟨r, q', hr, h⟩ := returns_bind.1 h
      obtain ⟨rfl, rfl⟩ := returns_pure.1 h
      obtain ⟨is, q'', his, hr⟩ := returns_bind.1 hr
      obtain ⟨rfl, rfl⟩ := returns_pure.1 hr
      obtain ⟨φs, rfl, hne, hφs, hts⟩ := tuple_sound (fun _ _ _ => returns_expectIndex.1) his
      exact ⟨_, .ref hfunction hne hφs, .cons hname (returns_advance.1 hq) hts⟩
  · next hopen =>
    obtain ⟨_, q, hq, h⟩ := returns_bind.1 h
    obtain ⟨inner, q', hinner, h⟩ := returns_bind.1 h
    obtain ⟨_, q'', hclose, h⟩ := returns_bind.1 h
    obtain ⟨rfl, rfl⟩ := returns_pure.1 h
    obtain ⟨ts, hderives, hts⟩ := hexpr _ _ _ hinner
    exact ⟨_, .paren hderives,
      .cons hopen (returns_advance.1 hq) (hts.append (returns_expect.1 hclose))⟩
  · exact absurd h not_returns_fail
  · exact absurd h not_returns_fail

theorem exprUpTo_sound {depth : Nat} (h : Returns (exprUpTo fuel depth) p e p') :
    ∃ ts, Derives (.levels Level.all) ts e ∧ Consumes p ts p' := by
  induction depth generalizing p e p' with
  | zero => exact absurd h not_returns_fail
  | succ depth ih =>
    exact levels_sound (fun _ _ _ => unary_sound fun _ _ _ => operand_sound fun _ _ _ => ih) h

theorem exprWith_eq (fuel : Nat) : exprWith fuel = exprUpTo fuel fuel := rfl

/-- What the parser returns is derived from the tokens it consumes. -/
theorem derives_of_returns (h : Returns expr p e p') :
    ∃ ts, Derives (.levels Level.all) ts e ∧ Consumes p ts p' := by
  obtain ⟨_, _, hget, hexpr⟩ := returns_bind.1 h
  obtain ⟨rfl, rfl⟩ := returns_get.1 hget
  rw [exprWith_eq] at hexpr
  exact exprUpTo_sound hexpr

/-! ## Completeness -/

/-- The token does not go on with an expression whose chains are on these levels. -/
def Ends (ls : List Level) (t : Option Token) : Prop :=
  t ≠ some .lparen ∧ ∀ l ∈ ls, ∀ op ∈ l.operators, t ≠ some (.operator op)

section

variable {l : Level} {ls : List Level} {t : Option Token} {links : List (Operator × Phrase Expr)}

theorem Ends.of_cons (h : Ends (l :: ls) t) : Ends ls t :=
  ⟨h.1, fun l' hl' => h.2 l' (List.mem_cons_of_mem _ hl')⟩

theorem ends_operator {op : Operator} (hl : l ∉ ls) (hop : op ∈ l.operators) :
    Ends ls (some (.operator op)) := by
  refine ⟨by simp, fun l' hl' op' hop' heq => hl ?_⟩
  cases heq
  exact Level.eq_of_mem_operators hop hop' ▸ hl'

/-- Between the links of a chain stand operators of its level. -/
theorem ends_of_links (hl : l ∉ ls) (hops : ∀ k ∈ links, k.1 ∈ l.operators)
    (h : Consumes p (links.flatMap fun k => .operator k.1 :: k.2.tokens) p')
    (hend : Ends (l :: ls) p'.current) : Ends ls p.current := by
  cases links with
  | nil =>
    obtain rfl := consumes_nil_iff.1 h
    exact hend.of_cons
  | cons k links =>
    rw [(consumes_cons_iff.1 h).1]
    exact ends_operator hl (hops k List.mem_cons_self)

theorem moreOperands_complete {f : Parse Expr} (hl : l ∉ ls)
    (hops : ∀ k ∈ links, k.1 ∈ l.operators)
    (hoperand : ∀ k ∈ links, ∀ p p', Consumes p k.2.tokens p' → Ends ls p'.current →
      Returns f p k.2.meaning p')
    (hfuel : links.length ≤ fuel)
    (h : Consumes p (links.flatMap fun k => .operator k.1 :: k.2.tokens) p')
    (hend : Ends (l :: ls) p'.current) :
    Returns (moreOperands l f fuel) p (links.map fun k => (k.1.text, k.2.meaning)) p' := by
  induction links generalizing p fuel with
  | nil =>
    obtain rfl := consumes_nil_iff.1 h
    cases fuel with
    | zero => exact returns_pure.2 ⟨rfl, rfl⟩
    | succ fuel =>
      refine returns_current_bind.2 ?_
      split
      · next op hop =>
        rw [if_neg fun hmem => hend.2 l List.mem_cons_self op hmem hop]
        exact returns_pure.2 ⟨rfl, rfl⟩
      · exact returns_pure.2 ⟨rfl, rfl⟩
  | cons k links ih =>
    obtain ⟨fuel, rfl⟩ : ∃ n, fuel = n + 1 := ⟨fuel - 1, by simp at hfuel; omega⟩
    obtain ⟨hoperand, hoperands⟩ := List.forall_mem_cons.1 hoperand
    obtain ⟨hop, hops⟩ := List.forall_mem_cons.1 hops
    rw [List.flatMap_cons, List.cons_append] at h
    obtain ⟨hcurrent, q, hq, h⟩ := consumes_cons_iff.1 h
    obtain ⟨q', hk, h⟩ := consumes_append_iff.1 h
    refine returns_of_next hcurrent hq (if_pos hop) ?_
    refine returns_bind.2 ⟨_, q', hoperand _ _ hk (ends_of_links hl hops h hend), ?_⟩
    exact returns_bind.2 ⟨_, p', ih hops hoperands (by simpa using hfuel) h,
      returns_pure.2 ⟨rfl, rfl⟩⟩

theorem prefixOperators_complete {os : List Operator} (hos : ∀ op ∈ os, op ∈ Operator.prefixes)
    (hfuel : os.length ≤ fuel) (h : Consumes p (os.map .operator) p')
    (hend : ∀ op, p'.current ≠ some (.operator op)) :
    Returns (prefixOperators fuel) p (os.map (·.text)) p' := by
  induction os generalizing p fuel with
  | nil =>
    obtain rfl := consumes_nil_iff.1 h
    cases fuel with
    | zero => exact returns_pure.2 ⟨rfl, rfl⟩
    | succ fuel =>
      refine returns_current_bind.2 ?_
      split
      · next op hop => exact absurd hop (hend op)
      · exact returns_pure.2 ⟨rfl, rfl⟩
  | cons op os ih =>
    obtain ⟨fuel, rfl⟩ : ∃ n, fuel = n + 1 := ⟨fuel - 1, by simp at hfuel; omega⟩
    obtain ⟨hop, hos⟩ := List.forall_mem_cons.1 hos
    obtain ⟨hcurrent, q, hq, h⟩ := consumes_cons_iff.1 h
    refine returns_of_next hcurrent hq (if_pos hop) ?_
    exact returns_bind.2 ⟨_, p', ih hos (by simpa using hfuel) h, returns_pure.2 ⟨rfl, rfl⟩⟩

end

/-- An operand does not start with an operator. -/
theorem head_of_derives_operand (h : Derives .operand ts e) :
    ∃ t us, ts = t :: us ∧ ∀ op, t ≠ .operator op := by
  cases h <;> exact ⟨_, _, rfl, by simp⟩

theorem length_flatMap_cons {β : Type} {t : β → Token} {u : β → List Token} (xs : List β) :
    xs.length ≤ (xs.flatMap fun x => t x :: u x).length ∧
      ∀ x ∈ xs, (u x).length < (xs.flatMap fun x => t x :: u x).length := by
  induction xs with
  | nil => simp
  | cons x xs ih =>
    obtain ⟨hlength, hmem⟩ := ih
    rw [List.flatMap_cons, List.length_append, List.length_cons, List.length_cons]
    refine ⟨by omega, List.forall_mem_cons.2 ⟨by omega, fun y hy => ?_⟩⟩
    have := hmem y hy
    omega

theorem length_listing (φs : List (Phrase α)) :
    φs.length ≤ (listing φs).length + 1 ∧ ∀ φ ∈ φs, φ.tokens.length ≤ (listing φs).length := by
  cases φs with
  | nil => simp
  | cons φ φs =>
    obtain ⟨hlength, hmem⟩ := length_flatMap_cons (t := fun _ => .comma) (u := Phrase.tokens) φs
    rw [listing, List.length_append, List.length_cons]
    refine ⟨by omega, List.forall_mem_cons.2 ⟨by omega, fun ψ hψ => ?_⟩⟩
    have := hmem ψ hψ
    omega

end Parse

namespace Symbol

/-- The levels on which the phrase may go on. -/
def openLevels : Symbol → List Level
  | levels ls => ls
  | operand => []

/-- The parser of a phrase, for parentheses nested at most `depth` deep. -/
def parser (fuel depth : Nat) : Symbol → Parse Expr
  | levels ls => .levels fuel (.unary fuel (.operand fuel (.exprUpTo fuel depth))) ls
  | operand => .operand fuel (.exprUpTo fuel depth)

end Symbol

namespace Parse

open Surface.Parser

variable {p p' : Parser} {e : Expr} {ts : List Token} {fuel : Nat}

theorem nodup_all : Level.all.Nodup := by decide

theorem ends_of_endsItem {t : Option Token} (h : EndsItem t) : Ends Level.all t := by
  rcases h with rfl | rfl <;> exact ⟨by simp, by simp⟩

/-- The parser of a phrase returns what the grammar derives. Depth and fuel are bounded by the
number of tokens, since every nesting and every repetition has one of its own. -/
theorem complete {s : Symbol} {depth : Nat} (h : Derives s ts e) (hnodup : s.openLevels.Nodup)
    (hdepth : ts.length ≤ depth + 1) (hfuel : ts.length ≤ fuel) (hts : Consumes p ts p')
    (hend : Ends s.openLevels p'.current) : Returns (s.parser fuel depth) p e p' := by
  induction h generalizing p p' depth with
  | @chain l ls first links hfirst hops hlinks ihfirst ihlinks =>
    obtain ⟨hl, hnodup⟩ := List.nodup_cons.1 hnodup
    obtain ⟨hcount, hlength⟩ := length_flatMap_cons (t := fun k => .operator k.1)
      (u := fun k : Operator × Phrase Expr => k.2.tokens) links
    rw [List.length_append] at hdepth hfuel
    obtain ⟨q, hq, hrest⟩ := consumes_append_iff.1 hts
    refine returns_bind.2 ⟨_, q, ihfirst hnodup (by omega) (by omega) hq
      (ends_of_links hl hops hrest hend), ?_⟩
    refine returns_bind.2 ⟨_, p', moreOperands_complete hl hops (fun k hk r r' hr hends => ?_)
      (by omega) hrest hend, returns_pure.2 ⟨by simp, rfl⟩⟩
    have := hlength k hk
    exact ihlinks k hk hnodup (by omega) (by omega) hr hends
  | @unary ops ts e hops hoperand ih =>
    rw [List.length_append, List.length_map] at hdepth hfuel
    obtain ⟨q, hq, hrest⟩ := consumes_append_iff.1 hts
    have hcurrent : ∀ op, q.current ≠ some (.operator op) := by
      obtain ⟨t, us, rfl, ht⟩ := head_of_derives_operand hoperand
      intro op hop
      rw [(consumes_cons_iff.1 hrest).1] at hop
      exact ht op (Option.some.inj hop)
    refine returns_bind.2 ⟨_, q, prefixOperators_complete hops (by omega) hq hcurrent, ?_⟩
    exact returns_bind.2 ⟨_, p', ih hnodup (by omega) (by omega) hrest hend,
      returns_pure.2 ⟨rfl, rfl⟩⟩
  | int n =>
    obtain ⟨hcurrent, q, hq, hrest⟩ := consumes_cons_iff.1 hts
    obtain rfl := consumes_nil_iff.1 hrest
    exact returns_of_next hcurrent hq rfl (returns_pure.2 ⟨rfl, rfl⟩)
  | float v =>
    obtain ⟨hcurrent, q, hq, hrest⟩ := consumes_cons_iff.1 hts
    obtain rfl := consumes_nil_iff.1 hrest
    exact returns_of_next hcurrent hq rfl (returns_pure.2 ⟨rfl, rfl⟩)
  | var name =>
    obtain ⟨hcurrent, q, hq, hrest⟩ := consumes_cons_iff.1 hts
    obtain rfl := consumes_nil_iff.1 hrest
    refine returns_of_next hcurrent hq rfl (returns_current_bind.2 ?_)
    rw [if_pos hend.1]
    exact returns_pure.2 ⟨rfl, rfl⟩
  | @ref name idx hname hne hidx =>
    obtain ⟨hcurrent, q, hq, hrest⟩ := consumes_cons_iff.1 hts
    refine returns_of_next hcurrent hq rfl (returns_current_bind.2 ?_)
    obtain ⟨hcount, -⟩ := length_listing idx
    simp only [List.length_cons, List.length_append, List.length_nil] at hfuel
    rw [if_neg fun h => h (consumes_cons_iff.1 hrest).1, if_neg hname]
    refine returns_bind.2 ⟨_, p', ?_, returns_pure.2 ⟨rfl, rfl⟩⟩
    refine returns_bind.2 ⟨_, p', ?_, returns_pure.2 ⟨rfl, rfl⟩⟩
    exact tuple_complete hne (fun φ hφ r r' hr _ => returns_expectIndex.2 ⟨_, hidx φ hφ, hr⟩)
      (by omega) hrest
  | @call f args hf hne hargs ih =>
    obtain ⟨hcurrent, q, hq, hrest⟩ := consumes_cons_iff.1 hts
    refine returns_of_next hcurrent hq rfl (returns_current_bind.2 ?_)
    obtain ⟨hcount, hlength⟩ := length_listing args
    simp only [List.length_cons, List.length_append, List.length_nil] at hfuel hdepth
    rw [if_neg fun h => h (consumes_cons_iff.1 hrest).1, if_pos hf]
    refine returns_bind.2 ⟨_, p', ?_, returns_pure.2 ⟨rfl, rfl⟩⟩
    refine tuple_complete hne (fun φ hφ r r' hr hnext => ?_) (by omega) hrest
    have := hlength φ hφ
    obtain ⟨depth, rfl⟩ : ∃ n, depth = n + 1 := ⟨depth - 1, by omega⟩
    exact ih φ hφ nodup_all (by omega) (by omega) hr (ends_of_endsItem hnext)
  | @paren ts e he ih =>
    obtain ⟨hcurrent, q, hq, hrest⟩ := consumes_cons_iff.1 hts
    refine returns_of_next hcurrent hq rfl ?_
    obtain ⟨q', hinner, hclose⟩ := consumes_append_iff.1 hrest
    simp only [List.length_cons, List.length_append, List.length_nil] at hfuel hdepth
    obtain ⟨depth, rfl⟩ : ∃ n, depth = n + 1 := ⟨depth - 1, by omega⟩
    have hnext : EndsItem q'.current := .inr (consumes_cons_iff.1 hclose).1
    refine returns_bind.2 ⟨e, q', ih nodup_all (by omega) (by omega) hinner
      (ends_of_endsItem hnext), ?_⟩
    exact returns_bind.2 ⟨(), p', returns_expect.2 hclose, returns_pure.2 ⟨rfl, rfl⟩⟩

/-- Tokens that the grammar derives are parsed, if the next token does not go on. -/
theorem returns_of_derives (h : Derives (.levels Level.all) ts e) (hts : Consumes p ts p')
    (hend : Ends Level.all p'.current) : Returns expr p e p' := by
  have hlength := hts.length_le
  refine returns_bind.2 ⟨p, p, returns_get.2 ⟨rfl, rfl⟩, ?_⟩
  rw [exprWith_eq, fuel]
  exact complete h nodup_all (by omega) (by omega) hts hend

end Parse

end Surface

end GridSweep
