import GridSweep.Proofs.Node.Printed
import GridSweep.Proofs.Node.Walks
import GridSweep.Proofs.Stencil.Statements
import GridSweep.Proofs.Surface.Programs

/-!
# Operators and operands that are read by position

Simplifying a chain reads the operator in front of each operand but the first, folding literals
reads the first operator, and printing reads the first operand. Lowering lets only chains with an
operator between each two operands through, and neither simplifying nor renaming takes one away, so
what is read is always there (`accepted_stay_linked`). Whatever is parsed is lowered.
-/

namespace GridSweep

namespace Node

variable {ref : Ref → Prop} {var : String → Prop} {l : Level} {n x first : Node}
  {xs : List Node} {ops : List String}

/-! ## Whole trees -/

/-- A chain has operands, and between each two of them an operator of its level. -/
def HasLinks : Node → Prop
  | .chain l xs ops =>
    0 < xs.length ∧ ops.length + 1 = xs.length ∧ ∀ op ∈ ops, l.accepts op = true
  | _ => True

/-- What is read of a tree is there. -/
structure Linked (n : Node) : Prop where
  parts : ∀ m ∈ n.parts, m.HasLinks
  simplified : n.simplifyAt? = some n.simplify
  printed : n.render? = some n.text

theorem forall_parts_iff {P : Node → Prop} :
    (∀ m ∈ n.parts, P m) ↔ P n ∧ ∀ c ∈ n.children, ∀ m ∈ c.parts, P m := by
  rw [parts_eq, List.forall_mem_cons]
  simp only [List.mem_flatMap, forall_exists_index, and_imp]
  exact and_congr_right fun _ => ⟨fun h c hc m hm => h m c hc hm, fun h m c hc hm => h c hc m hm⟩

theorem Proper.hasLinks (h : Proper ref var n) : ∀ m ∈ n.parts, m.HasLinks := by
  induction h with
  | chain _ hops _ ihfirst ihlinks =>
    refine forall_parts_iff.2 ⟨⟨by simp, by simp, List.forall_mem_map.2 hops⟩, ?_⟩
    exact List.forall_mem_cons.2 ⟨ihfirst, List.forall_mem_map.2 ihlinks⟩
  | unary _ _ ih => exact forall_parts_iff.2 ⟨trivial, List.forall_mem_singleton.2 ih⟩
  | call _ _ _ ih =>
    refine forall_parts_iff.2 ⟨trivial, List.forall_mem_singleton.2 ?_⟩
    exact forall_parts_iff.2 ⟨trivial, ih⟩
  | paren _ ih => exact forall_parts_iff.2 ⟨trivial, List.forall_mem_singleton.2 ih⟩
  | _ =>
    refine forall_parts_iff.2 ⟨trivial, List.forall_mem_singleton.2 ?_⟩
    exact forall_parts_iff.2 ⟨trivial, List.forall_mem_nil _⟩

theorem Proper.linked (h : Proper ref var n) : n.Linked :=
  ⟨h.hasLinks, (simplifyAt?_eq n).trans h.simplify?, h.render?⟩

/-! ## Programs -/

section

variable {p : Program Node}

/-- The expressions of a simplified program. -/
theorem simplify_program (p : Program Node) : ∃ q : Program Node,
    (Node.program p).simplify = .program q ∧
      q.output.expressions = p.output.expressions.map simplify :=
  ⟨_, rfl, by simp [Output.expressions, simplifyBindings_eq_map]⟩

/-- The expressions of a renamed program. -/
theorem mapRefs_program (f : Ref → String) (p : Program Node) : ∃ q : Program Node,
    (Node.program p).mapRefs f = .program q ∧
      q.output.expressions = p.output.expressions.map (mapRefs f) :=
  ⟨_, rfl, by simp [Output.expressions, mapRefsBindings_eq_map]⟩

theorem printableBindings_eq_all (bs : List (Binding Node)) :
    printableBindings bs = bs.all (·.value.printable) := by
  induction bs with
  | nil => rfl
  | cons b bs ih => rw [printableBindings, ih, List.all_cons]

/-- A program is linked if its expressions are. -/
theorem linked_program (h : p.output.Proper) : (Node.program p).Linked := by
  have hvalue := h p.output.value (by simp [Output.expressions])
  have hbindings : ∀ b ∈ p.output.bindings, b.value.Proper (fun _ => True) (fun _ => True) :=
    fun b hb => h b.value (by simp [Output.expressions]; exact .inl ⟨b, hb, rfl⟩)
  have hleaf {m : Node} (hm : m.HasLinks) (hnone : m.children = []) : ∀ c ∈ m.parts, c.HasLinks :=
    forall_parts_iff.2 ⟨hm, by simp [hnone]⟩
  refine ⟨?_, ?_, if_pos ?_⟩
  · refine forall_parts_iff.2 ⟨trivial, fun c hc => ?_⟩
    rcases List.mem_append.1 hc with hc | hc
    · obtain ⟨i, -, rfl⟩ := List.mem_map.1 hc
      exact hleaf trivial rfl
    · cases List.mem_singleton.1 hc
      refine forall_parts_iff.2 ⟨trivial, List.forall_mem_cons.2 ⟨hleaf trivial rfl, ?_⟩⟩
      rintro c hc
      rcases List.mem_append.1 hc with hc | hc
      · obtain ⟨b, hb, rfl⟩ := List.mem_map.1 hc
        exact forall_parts_iff.2 ⟨trivial, List.forall_mem_singleton.2 (hbindings b hb).hasLinks⟩
      · cases List.mem_singleton.1 hc
        exact hvalue.hasLinks
  · rw [simplifyAt?_eq, simplify?, if_pos]
    rw [hasOperators, hasOperatorsBindings_eq_all, hvalue.hasOperators, Bool.and_true]
    exact List.all_eq_true.2 fun b hb => (hbindings b hb).hasOperators
  · rw [printable, printableBindings_eq_all, hvalue.printable, Bool.and_true]
    exact List.all_eq_true.2 fun b hb => (hbindings b hb).printable

end

/-- A tree that lowering lets through: an expression or a whole program. -/
inductive Accepted : Node → Prop where
  | expr {n : Node} : n.Proper (fun _ => True) (fun _ => True) → Accepted n
  | program {p : Program Node} : p.output.Proper → Accepted (.program p)

namespace Accepted

theorem linked (h : Accepted n) : n.Linked := by
  cases h with
  | expr h => exact h.linked
  | program h => exact linked_program h

theorem simplify (h : Accepted n) : Accepted n.simplify := by
  cases h with
  | expr h => exact .expr h.simplify
  | @program p h =>
    obtain ⟨q, hq, hexpressions⟩ := simplify_program p
    rw [hq]
    refine .program fun e he => ?_
    rw [hexpressions] at he
    obtain ⟨x, hx, rfl⟩ := List.mem_map.1 he
    exact (h x hx).simplify

theorem mapRefs (h : Accepted n) (f : Ref → String) : Accepted (n.mapRefs f) := by
  have hproper {e : Node} (he : e.Proper (fun _ => True) (fun _ => True)) :
      (e.mapRefs f).Proper (fun _ => True) (fun _ => True) :=
    he.mapRefs (fun _ _ => trivial) fun _ _ => trivial
  cases h with
  | expr h => exact .expr (hproper h)
  | @program p h =>
    obtain ⟨q, hq, hexpressions⟩ := mapRefs_program f p
    rw [hq]
    refine .program fun e he => ?_
    rw [hexpressions] at he
    obtain ⟨x, hx, rfl⟩ := List.mem_map.1 he
    exact hproper (h x hx)

end Accepted

/-- A tree and its simplified form are linked, and stay so when their references are renamed. -/
def StaysLinked (n : Node) : Prop :=
  ∀ m, m = n ∨ m = n.simplify →
    m.Linked ∧ ∀ origin m', m.renameRefs origin = .ok m' → m'.Linked

theorem Accepted.staysLinked (h : Accepted n) : n.StaysLinked := by
  intro m hm
  have haccepted : Accepted m := by
    rcases hm with rfl | rfl
    · exact h
    · exact h.simplify
  refine ⟨haccepted.linked, fun origin m' hrename => ?_⟩
  rw [eq_mapRefs_of_renameRefs hrename]
  exact (haccepted.mapRefs _).linked

end Node

/-! ## What is parsed is lowered -/

namespace Surface

/-- The operators and functions that the grammar knows are those that lowering accepts. -/
theorem Derives.lowers {s : Symbol} {ts : List Token} {e : Expr} (h : Derives s ts e) :
    ∃ n, e.lower = .ok n := by
  induction h with
  | chain _ hops _ ihfirst ihlinks =>
    obtain ⟨n, hn⟩ := ihfirst
    choose! node hnode using ihlinks
    exact ⟨_, lower_binary hn (fun k hk => Level.accepts_iff.2 ⟨k.1, hops k hk, rfl⟩) hnode⟩
  | unary hops _ ih =>
    obtain ⟨n, hn⟩ := ih
    exact ⟨_, lower_unary (List.forall_mem_map.2 fun op hop =>
      Operator.isPrefixSpelling_iff.2 ⟨op, hops op hop, rfl⟩) hn⟩
  | call hf hne _ ih =>
    choose! node hnode using ih
    exact ⟨_, lower_call hf hne hnode⟩
  | paren _ ih =>
    obtain ⟨n, hn⟩ := ih
    exact ⟨_, by simp only [Expr.lower, hn]; rfl⟩
  | _ => exact ⟨_, rfl⟩

theorem ProgramTree.lowers (d : ProgramTree) : ∃ q, d.phrase.meaning.lower = .ok q := by
  choose node hnode using fun b : LetTree => b.value.derives.lowers
  obtain ⟨n, hn⟩ := d.output.value.derives.lowers
  have hbindings : (d.output.lets.map (·.phrase.meaning)).mapM lowerBinding =
      .ok (d.output.lets.map fun b => ⟨b.name, node b⟩) := by
    rw [mapM_eq_ok_iff, List.forall₂_map_left_iff, List.forall₂_map_right_iff, List.forall₂_same]
    intro b _
    change b.value.phrase.meaning.lower >>= _ = _
    rw [hnode b]
    rfl
  have houtput : lowerOutput d.output.phrase.meaning =
      .ok ⟨d.output.target.phrase.meaning, d.output.lets.map fun b => ⟨b.name, node b⟩, n⟩ := by
    change (d.output.lets.map (·.phrase.meaning)).mapM lowerBinding >>= _ = _
    rw [hbindings, ok_bind]
    change d.output.value.phrase.meaning.lower >>= _ = _
    rw [hn]
    rfl
  exact ⟨_, by rw [Program.lower, ProgramTree.phrase]; simp only [houtput]; rfl⟩

end Surface

/-- Whatever is parsed is lowered, and whatever is lowered, parsed or not, has all operators and
operands that are read when it is simplified, renamed or printed. -/
theorem accepted_stay_linked :
    (∀ st a st', Surface.Parse.Returns Surface.Parse.program st a st' → ∃ p, a.lower = .ok p) ∧
    (∀ st e st', Surface.Parse.Returns Surface.Parse.expr st e st' → ∃ n, e.lower = .ok n) ∧
    (∀ (a : Surface.Program) p, a.lower = .ok p →
      (Node.program p).StaysLinked ∧ ∀ e ∈ p.output.expressions, e.StaysLinked) ∧
    ∀ (e : Surface.Expr) n, e.lower = .ok n → n.StaysLinked := by
  refine ⟨fun st a st' h => ?_, fun st e st' h => ?_, fun a p h => ?_, fun e n h => ?_⟩
  · obtain ⟨-, -, d, rfl, -⟩ := Surface.Parse.program_sound h
    exact d.lowers
  · obtain ⟨ts, hderives, -⟩ := Surface.Parse.derives_of_returns h
    exact hderives.lowers
  · have hproper := Surface.Program.proper_of_lower h
    exact ⟨(Node.Accepted.program hproper).staysLinked,
      fun e he => (Node.Accepted.expr (hproper e he)).staysLinked⟩
  · exact (Node.Accepted.expr (Surface.Expr.proper_of_lower h)).staysLinked

/-- Literals are folded and two differences are spliced in. -/
theorem nested_differences_stay_linked :
    ∃ e n, Surface.parseExpr "2 * 3 - (a(0, -1) - (x + 1))" = .ok e ∧ e.lower = .ok n ∧
      n.simplify.text = "6.0 - a(0, -1) + x + 1.0" ∧ n.StaysLinked := by
  have htext : ((Surface.parseExpr "2 * 3 - (a(0, -1) - (x + 1))" >>= Surface.Expr.lower).map
      fun n => n.simplify.text) = .ok "6.0 - a(0, -1) + x + 1.0" := by
    decide +kernel
  cases he : Surface.parseExpr "2 * 3 - (a(0, -1) - (x + 1))" with
  | error _ =>
    rw [he] at htext
    cases htext
  | ok e =>
    obtain ⟨-, hparsed, -, hlinked⟩ := accepted_stay_linked
    obtain ⟨st', hreturns⟩ := Surface.returns_of_parseExpr he
    obtain ⟨n, hn⟩ := hparsed _ e st' hreturns
    rw [he, ok_bind, hn] at htext
    exact ⟨e, n, rfl, hn, Except.ok.inj htext, hlinked e n hn⟩

end GridSweep
