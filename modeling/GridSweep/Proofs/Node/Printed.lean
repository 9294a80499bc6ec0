import GridSweep.Proofs.Node.ReadBack

/-!
# Printing and reading expressions

A simplified tree that was read from a text is printed as a text that gives the same tree again. A
tree from elsewhere may hold a chain at a place where the language asks for parentheses, and then
its text says something else; where every chain is grouped, the text means what the tree means.
-/

namespace GridSweep

open Surface Node

namespace Surface

/-- All of a text is read, as this expression. -/
def ReadsWhole (text : String) (e : Expr) : Prop :=
  Parse.Returns Parse.expr (Parser.ofSource text) e ⟨none, [], none⟩

theorem ReadsWhole.unique {text : String} {e e' : Expr} (h : ReadsWhole text e)
    (h' : ReadsWhole text e') : e = e' :=
  Except.ok.inj (congrArg Prod.fst (h.symm.trans h'))

theorem returns_of_parseExpr {source : String} {e : Expr} (h : parseExpr source = .ok e) :
    ∃ p, Parse.Returns Parse.expr (Parser.ofSource source) e p :=
  ⟨(Parse.outcome Parse.expr (Parser.ofSource source)).2, Prod.ext h rfl⟩

/-- A text that is read lowers to a tree of writable names, which is tidy when it is simplified. -/
theorem tidy_of_parseExpr {source : String} {e : Expr} (h : parseExpr source = .ok e) :
    ∃ n, e.lower = .ok n ∧ n.Proper Ref.Spellable (isIdentifier · = true) ∧
      Tidy Level.all n.simplify := by
  obtain ⟨p, hreturns⟩ := returns_of_parseExpr h
  obtain ⟨ts, hderives, hconsumes⟩ := Parse.derives_of_returns hreturns
  obtain ⟨n, hn, hproper, htidy, -⟩ := hderives.tidy (List.suffix_refl _)
    (hconsumes.lexical (Parser.lexical_ofSource source))
  exact ⟨n, hn, hproper, htidy⟩

end Surface

variable {ref : Ref → Prop} {var : String → Prop} {n : Node}

theorem printableFirst_of_forall {xs : List Node} (h : ∀ x ∈ xs, x.printable = true) (k : Nat) :
    printableFirst k xs = true := by
  induction xs generalizing k with
  | nil => cases k <;> rfl
  | cons x xs ih =>
    obtain ⟨hx, hxs⟩ := List.forall_mem_cons.1 h
    cases k with
    | zero => rfl
    | succ k => rw [printableFirst, hx, ih hxs k, Bool.and_self]

theorem Node.Proper.printable (h : Proper ref var n) : n.printable = true := by
  induction h with
  | chain _ _ _ ihfirst ihlinks =>
    exact printableFirst_of_forall
      (List.forall_mem_cons.2 ⟨ihfirst, List.forall_mem_map.2 ihlinks⟩) _
  | unary _ _ ih => exact ih
  | call _ _ _ ih => exact printableFirst_of_forall ih _
  | paren _ ih => exact ih
  | _ => rfl

theorem Node.Proper.render? (h : Proper ref var n) : n.render? = some n.text :=
  if_pos h.printable

theorem eq_text_of_render? {text : String} (h : n.render? = some text) : text = n.text := by
  unfold Node.render? at h
  split at h
  · exact (Option.some.inj h).symm
  · cases h

theorem Reads.readsWhole {ρ : Reading} (h : Reads Level.all n ρ) : ReadsWhole n.text ρ.expr :=
  Parse.returns_of_derives h.derives (Parser.consumes_ofSource h.spells.tokens_eq)
    ⟨by simp, by simp⟩

/-! ## Trees that were read -/

/-- An expression that was read and simplified is printed as a text that gives the same tree again,
if its literals are finite. -/
theorem printed_reads_back {source : String} {e : Expr} (h : parseExpr source = .ok e) :
    ∃ n, e.lower = .ok n ∧ n.simplify? = some n.simplify ∧
      ((∀ v ∈ n.simplify.literals, v.IsFinite) →
        ∃ text e' n', n.simplify.render? = some text ∧ ReadsWhole text e' ∧ e'.lower = .ok n' ∧
          n'.simplify? = some n.simplify) := by
  obtain ⟨n, hn, hproper, htidy⟩ := tidy_of_parseExpr h
  refine ⟨n, hn, hproper.simplify?, fun hfinite => ?_⟩
  obtain ⟨ρ, hρ⟩ := exists_reads hproper.simplify (List.suffix_refl _) htidy.grouped hfinite
  have hsame : ρ.node.simplify = n.simplify := hρ.simplify hproper.reduced_simplify htidy
  refine ⟨_, ρ.expr, ρ.node, hproper.simplify.render?, hρ.readsWhole, hρ.lowers, ?_⟩
  rw [← hsame]
  exact (Expr.proper_of_lower hρ.lowers).simplify?

/-- Literals are folded, a sum is spliced in, and the comparison keeps its parentheses. -/
theorem folded_and_spliced_reads_back :
    ∃ e n, parseExpr "0.5 + 2 - (a(0, -1) - -x) - (0.1 * (y) < 3e20)" = .ok e ∧ e.lower = .ok n ∧
      (∀ v ∈ n.simplify.literals, v.IsFinite) ∧
      ∃ text e' n', n.simplify.render? = some text ∧ ReadsWhole text e' ∧ e'.lower = .ok n' ∧
        n'.simplify? = some n.simplify := by
  have hfinite : ((parseExpr "0.5 + 2 - (a(0, -1) - -x) - (0.1 * (y) < 3e20)" >>= Expr.lower).map
      fun n => decide (∀ v ∈ n.simplify.literals, v.IsFinite)) = .ok true := by
    decide +kernel
  cases he : parseExpr "0.5 + 2 - (a(0, -1) - -x) - (0.1 * (y) < 3e20)" with
  | error _ =>
    rw [he] at hfinite
    cases hfinite
  | ok e =>
    obtain ⟨n, hn, -, hback⟩ := printed_reads_back he
    rw [he, ok_bind, hn] at hfinite
    have hfinite := of_decide_eq_true (Except.ok.inj hfinite)
    exact ⟨e, n, rfl, hn, hfinite, hback hfinite⟩

/-! ## Trees from elsewhere -/

/-- The simplified tree is printed as a text that means what the tree meant: it is read to its end,
and the value is the same wherever folding literals is exact. -/
def Node.PrintsMeaning (n : Node) : Prop :=
  ∃ text e' n', n.simplify.render? = some text ∧ ReadsWhole text e' ∧ e'.lower = .ok n' ∧
    ∀ {V : Type} [AddCommGroup V] (I : Interpretation V), (∀ f ∈ n.folds, I.Exact f) →
      ∀ s, I.value s n' = I.value s n

/-- Another tree has the same text, and this one is read. -/
theorem not_printsMeaning_of_same_text {V : Type} [AddCommGroup V] {m : Node} {ρ : Reading}
    (hm : Reads Level.all m ρ) (htext : n.simplify.text = m.text) (I : Interpretation V)
    (hexact : ∀ f ∈ n.folds, I.Exact f) (s : Assignment V) (hne : I.value s m ≠ I.value s n) :
    ¬ n.PrintsMeaning := by
  rintro ⟨text, e, m', hrender, he, hm', hvalue⟩
  rw [eq_text_of_render? hrender, htext] at he
  obtain rfl := he.unique hm.readsWhole
  obtain rfl : m' = ρ.node := Except.ok.inj (hm'.symm.trans hm.lowers)
  exact hne ((hm.value I s).symm.trans (hvalue I hexact s))

theorem not_printsMeaning_of_not_isOk (h : (parseExpr n.simplify.text).isOk = false) :
    ¬ n.PrintsMeaning := by
  rintro ⟨text, e, m, hrender, he, -⟩
  have hok : parseExpr text = .ok e := congrArg Prod.fst he
  rw [← eq_text_of_render? hrender, hok] at h
  cases h

/-- A sum without parentheses as a factor. -/
def bareFactor : Expr :=
  .binary "MulDiv" [.binary "AddSub" [.operand (.var "a"), .operand (.var "b")] ["+"],
    .operand (.var "c")] ["*"]

/-- The expression that has the same text, `a + b * c`. -/
def regrouped : Expr :=
  .binary "AddSub" [.operand (.var "a"),
    .binary "MulDiv" [.operand (.var "b"), .operand (.var "c")] ["*"]] ["+"]

theorem bareFactor_misread :
    ∃ n, bareFactor.lower = .ok n ∧ (∀ x ∈ n.vars, isIdentifier x = true) ∧ n.refs = [] ∧
      n.literals = [] ∧ ¬ n.PrintsMeaning := by
  refine ⟨_, rfl, by decide, rfl, rfl, ?_⟩
  have hproper : Proper Ref.Spellable (isIdentifier · = true) _ :=
    (Expr.proper_of_lower (e := regrouped) rfl).of_leaves (by decide) (by decide)
  obtain ⟨ρ, hρ⟩ := exists_reads hproper (List.suffix_refl _) rfl (by decide)
  refine not_printsMeaning_of_same_text hρ rfl .arithmetic nofun
    ⟨fun _ => 0, fun x => if x = "c" then 2 else 1⟩ ?_
  change (1 : ℚ) + 1 * 2 ≠ (1 + 1) * 2
  norm_num

/-- A product of finite literals that overflows. -/
def overflowing : Expr :=
  .binary "MulDiv" [.operand (.num (.ofDecimal 1 308)), .operand (.num (.ofNat 10))] ["*"]

/-- Arithmetic in which every literal is zero, and so every fold is exact. -/
def zeroLiterals : Interpretation ℚ :=
  { Interpretation.arithmetic with
    literal := fun _ => 0
    literal_neg := fun _ => neg_zero.symm }

theorem exact_zeroLiterals (f : LiteralFold) : zeroLiterals.Exact f := by
  change (0 : ℚ) = Interpretation.arithmetic.binary f.operator 0 0
  unfold Interpretation.arithmetic
  dsimp only
  split <;> simp

/-- Infinity is printed as a name. -/
theorem overflowing_misread :
    ∃ n, overflowing.lower = .ok n ∧ (∀ v ∈ n.literals, v.IsFinite) ∧ ¬ n.PrintsMeaning := by
  refine ⟨_, rfl, by decide +kernel, ?_⟩
  have hproper : Proper Ref.Spellable (isIdentifier · = true) (.operand (.var "INFINITY")) :=
    .var (by decide)
  obtain ⟨ρ, hρ⟩ := exists_reads hproper (List.suffix_refl _) rfl nofun
  refine not_printsMeaning_of_same_text hρ (by decide +kernel) zeroLiterals
    (fun f _ => exact_zeroLiterals f) ⟨fun _ => 0, fun _ => 1⟩ ?_
  change (1 : ℚ) ≠ 0 * 0
  norm_num

/-- Accepted trees whose text is not read, or is read as something else: a sum as a factor without
parentheses, a reference without indices, one with an index that does not fit, and a product of
literals that overflows. -/
theorem accepted_trees_misread :
    (∃ n, bareFactor.lower = .ok n ∧ (∀ x ∈ n.vars, isIdentifier x = true) ∧ n.refs = [] ∧
      n.literals = [] ∧ ¬ n.PrintsMeaning) ∧
    (∀ idx ∈ [[], [-2 ^ 63]], ∃ n, (Expr.operand (.ref ⟨"a", idx⟩)).lower = .ok n ∧
      ¬ n.PrintsMeaning) ∧
    ∃ n, overflowing.lower = .ok n ∧ (∀ v ∈ n.literals, v.IsFinite) ∧ ¬ n.PrintsMeaning := by
  have hunread : ∀ idx ∈ [[], [-2 ^ 63]],
      (parseExpr (Node.operand (.ref ⟨"a", idx⟩)).simplify.text).isOk = false := by
    decide +kernel
  exact ⟨bareFactor_misread,
    fun idx hidx => ⟨_, rfl, not_printsMeaning_of_not_isOk (hunread idx hidx)⟩, overflowing_misread⟩

/-- An accepted tree of writable names keeps its meaning in print if, simplified, every chain stands
in parentheses or at a place for its level and every literal is finite. -/
theorem grouped_prints_meaning {e : Expr} (h : e.lower = .ok n)
    (hvars : ∀ x ∈ n.vars, isIdentifier x = true) (hrefs : ∀ r ∈ n.refs, r.Spellable)
    (hgrouped : n.simplify.grouped Level.all = true)
    (hfinite : ∀ v ∈ n.simplify.literals, v.IsFinite) : n.PrintsMeaning := by
  have hproper := (Expr.proper_of_lower h).of_leaves hrefs hvars
  obtain ⟨ρ, hρ⟩ := exists_reads hproper.simplify (List.suffix_refl _) hgrouped hfinite
  refine ⟨_, ρ.expr, ρ.node, hproper.simplify.render?, hρ.readsWhole, hρ.lowers, ?_⟩
  intro V _ I hexact s
  rw [hρ.value I s, Interpretation.value_simplify hproper hexact]

/-- The sum in parentheses and with a sign, `-(a(0, -1) + -2) * c`. -/
def signedFactor : Expr :=
  .binary "MulDiv"
    [.unary ["-"] (.operand (.paren (.binary "AddSub"
      [.operand (.ref ⟨"a", [0, -1]⟩), .unary ["-"] (.operand (.num (.ofNat 2)))] ["+"]))),
      .operand (.var "c")] ["*"]

theorem signed_factor_prints_meaning :
    ∃ n, signedFactor.lower = .ok n ∧ n.vars = ["c"] ∧ n.refs = [⟨"a", [0, -1]⟩] ∧
      n.simplify.grouped Level.all = true ∧ n.simplify.literals = [(Binary64.ofNat 2).neg] ∧
      n.PrintsMeaning := by
  refine ⟨_, rfl, rfl, rfl, rfl, rfl, ?_⟩
  exact grouped_prints_meaning (e := signedFactor) rfl (by decide) (by decide) rfl (by decide)

end GridSweep
