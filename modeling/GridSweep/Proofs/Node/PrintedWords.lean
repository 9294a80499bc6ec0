import GridSweep.Proofs.Node.Parts
import GridSweep.Proofs.Node.Printed
import GridSweep.Proofs.Text.Applications

/-!
# Words and parentheses of printed expressions

Numbers and variables print as words or without parentheses, operators print without words, and so
in the text of an expression a parenthesis stands behind a function name or behind no word
(`Node.inert_text`). A reader of C text that looks for calls of other functions finds none in it.
-/

namespace GridSweep

open CText

/-! ## Numbers -/

theorem isWordPart_of_isDigit {c : Char} (h : Lexer.isDigit c = true) :
    Lexer.isWordPart c = true := by
  by_contra hpart
  have hdigit := Lexer.isDigit_of_not_isWordPart (Bool.eq_false_iff.2 hpart)
  rw [h] at hdigit
  cases hdigit

theorem isName_digits {ds : List Char} (h : Lexer.IsDigits ds) : IsName (String.ofList ds) := by
  refine ⟨fun hnil => h.1 (by simpa using hnil), fun c hc => ?_⟩
  rw [String.toList_ofList] at hc
  exact isWordPart_of_isDigit (h.2 c hc)

theorem isName_toString (n : Nat) : IsName (toString n) := by
  have htext : toString n = String.ofList (Nat.toDigits 10 n) := by
    rw [← toList_toString, String.ofList_toList]
  rw [htext]
  exact isName_digits (Lexer.isDigits_toDigits n)

theorem isName_toString_int {n : Int} (h : 0 ≤ n) : IsName (toString n) := by
  obtain ⟨k, rfl⟩ := Int.eq_ofNat_of_zero_le h
  exact isName_toString k

/-- A text without parentheses and braces. -/
theorem inert_of_chars {s : String} (h : ∀ c ∈ s.toList, c ≠ '(' ∧ c ≠ '\x7b' ∧ c ≠ '\x7d') :
    inert [] (atoms s) = true := by
  have hmark {c : Char} (hc : .mark c ∈ atoms s) := h c (mem_of_mark_mem hc)
  rw [inert_iff, headsFrom_flat fun a ha heq => (hmark (heq ▸ ha)).1 rfl]
  exact ⟨fun a ha => ⟨fun heq => (hmark (heq ▸ ha)).2.1 rfl, fun heq => (hmark (heq ▸ ha)).2.2 rfl⟩,
    by simp⟩

/-- A character of a C constant. -/
def isNumeral (c : Char) : Bool := Lexer.isWordPart c || c == '.' || c == '-'

theorem ne_of_isNumeral {c : Char} (h : isNumeral c = true) :
    c ≠ '(' ∧ c ≠ '\x7b' ∧ c ≠ '\x7d' := by
  refine ⟨?_, ?_, ?_⟩ <;> rintro rfl <;> revert h <;> decide

theorem isNumeral_of_isWordPart {c : Char} (h : Lexer.isWordPart c = true) :
    isNumeral c = true := by
  simp [isNumeral, h]

theorem isNumeral_toString_int (n : Int) : ∀ c ∈ (toString n).toList, isNumeral c = true := by
  intro c hc
  cases n with
  | ofNat k => exact isNumeral_of_isWordPart ((isName_toString k).2 c hc)
  | negSucc k =>
    have htext : (toString (Int.negSucc k)).toList = '-' :: (toString (k + 1)).toList := by
      rw [show toString (Int.negSucc k) = "-" ++ toString (k + 1) from rfl, String.toList_append]
      rfl
    rw [htext] at hc
    rcases List.mem_cons.1 hc with rfl | hc
    · decide
    · exact isNumeral_of_isWordPart ((isName_toString (k + 1)).2 c hc)

namespace Decimal

theorem isNumeral_digitChars (d : Decimal) : ∀ c ∈ d.digitChars, isNumeral c = true := by
  intro c hc
  refine isNumeral_of_isWordPart ((isName_toString d.digits).2 c ?_)
  rwa [toList_toString]

theorem isNumeral_scientific (d : Decimal) : ∀ c ∈ d.scientific.toList, isNumeral c = true := by
  have hdigits := d.isNumeral_digitChars
  unfold scientific
  split
  · simp
  · next c hc =>
    rw [hc] at hdigits
    intro x hx
    simp only [String.toList_append, String.toList_ofList, List.mem_append, List.mem_cons,
      List.not_mem_nil, or_false] at hx
    rcases hx with (rfl | rfl) | hx
    · exact hdigits x List.mem_cons_self
    · decide
    · exact isNumeral_toString_int _ x hx
  · next c cs hcs hc =>
    rw [hc] at hdigits
    intro x hx
    simp only [String.toList_append, String.toList_ofList, List.mem_append, List.mem_cons] at hx
    rcases hx with ((rfl | rfl | hx) | hx) | hx
    · exact hdigits x List.mem_cons_self
    · decide
    · exact hdigits x (List.mem_cons_of_mem _ hx)
    · exact List.all_eq_true.1 (show "e".toList.all isNumeral = true from rfl) x hx
    · exact isNumeral_toString_int _ x hx

/-- Positional notation has no more than digits and a point. -/
theorem forall_mem_positional {p : Char → Prop} (hdigit : ∀ c, Lexer.isDigit c = true → p c)
    (hpoint : p '.') (d : Decimal) : ∀ c ∈ d.positional.toList, p c := by
  have hdigits : ∀ c ∈ d.digitChars, p c := fun c hc =>
    hdigit c (Lexer.isDigit_of_mem_toDigits hc)
  have hzero {n : Nat} {c : Char} (hc : c ∈ List.replicate n '0') : p c := by
    obtain ⟨-, rfl⟩ := List.mem_replicate.1 hc
    exact hdigit '0' rfl
  intro x hx
  simp only [positional] at hx
  split at hx
  · rw [String.toList_ofList, List.mem_append] at hx
    exact hx.elim (hdigits x) hzero
  split at hx
  · rw [String.toList_ofList, List.mem_append, List.mem_cons] at hx
    rcases hx with hx | rfl | hx
    · exact hdigits x (List.mem_of_mem_take hx)
    · exact hpoint
    · exact hdigits x (List.mem_of_mem_drop hx)
  · rw [String.toList_ofList, List.mem_cons, List.mem_cons, List.mem_append] at hx
    rcases hx with rfl | rfl | hx | hx
    · exact hdigit '0' rfl
    · exact hpoint
    · exact hzero hx
    · exact hdigits x hx

theorem isNumeral_positional (d : Decimal) : ∀ c ∈ d.positional.toList, isNumeral c = true :=
  d.forall_mem_positional (fun _ hc => isNumeral_of_isWordPart (isWordPart_of_isDigit hc)) rfl

end Decimal

namespace Binary64

theorem isNumeral_withSign {s : String} (h : ∀ c ∈ s.toList, isNumeral c = true) (x : Binary64) :
    ∀ c ∈ (x.withSign s).toList, isNumeral c = true := by
  unfold withSign
  split
  · intro c hc
    rw [String.toList_append, List.mem_append] at hc
    rcases hc with hc | hc
    · exact List.all_eq_true.1 (show "-".toList.all isNumeral = true from rfl) c hc
    · exact h c hc
  · exact h

theorem isNumeral_constant (x : Binary64) : ∀ c ∈ x.constant.toList, isNumeral c = true := by
  unfold constant
  split
  · exact List.all_eq_true.1 rfl
  split
  · exact isNumeral_withSign (List.all_eq_true.1 rfl) x
  split
  · exact isNumeral_withSign x.shortest.isNumeral_scientific x
  split
  · refine isNumeral_withSign (fun c hc => ?_) x
    rw [String.toList_append, List.mem_append] at hc
    rcases hc with hc | hc
    · exact isNumeral_of_isWordPart ((isName_toString _).2 c hc)
    · exact List.all_eq_true.1 (show ".0".toList.all isNumeral = true from rfl) c hc
  · exact isNumeral_withSign x.shortest.isNumeral_positional x

theorem inert_constant (x : Binary64) : inert [] (atoms x.constant) = true :=
  inert_of_chars fun c hc => ne_of_isNumeral (x.isNumeral_constant c hc)

end Binary64

/-! ## Expressions -/

namespace Node

variable {ref ref' : Ref → Prop} {var var' : String → Prop} {n : Node}

/-- Operators have no words. -/
theorem atoms_operator (o : Operator) : inert functionNames (atoms o.text) = true ∧
    (atoms o.text).head? ≠ some (.mark '(') ∧ lastWord none (atoms o.text) = none ∧
    closes o.text = true := by
  cases o <;> decide +kernel

theorem inert_glue {o : Operator} {s : String} (h : inert functionNames (atoms s) = true) :
    inert functionNames (atoms (glue o.text s)) = true := by
  obtain ⟨hop, -, hlast, hclose⟩ := atoms_operator o
  have hboth : inert functionNames (atoms o.text ++ atoms s) = true :=
    inert_append hop h (.inr (by simp [hlast]))
  unfold glue
  split
  · rwa [String.append_assoc, atoms_append (by simp [hclose]),
      atoms_append (Bool.or_eq_true_iff.2 (.inl rfl))]
  · rwa [atoms_append (by simp [hclose])]

theorem inert_unaryText {ops : List String} {s : String}
    (hops : ∀ op ∈ ops, Operator.isPrefixSpelling op = true)
    (h : inert functionNames (atoms s) = true) :
    inert functionNames (atoms (unaryText ops s)) = true := by
  rw [unaryText_eq_foldr fun op hop => ?_]
  · induction ops with
    | nil => exact h
    | cons op ops ih =>
      obtain ⟨hop, hrest⟩ := List.forall_mem_cons.1 hops
      obtain ⟨o, -, rfl⟩ := Operator.isPrefixSpelling_iff.1 hop
      exact inert_glue (ih hrest)
  · obtain ⟨o, -, rfl⟩ := Operator.isPrefixSpelling_iff.1 (hops op hop)
    cases o <;> decide

theorem inert_linkText {o : Operator} {s : String} (h : inert functionNames (atoms s) = true) :
    inert functionNames (atoms (linkText o.text s)) = true ∧
      (atoms (linkText o.text s)).head? ≠ some (.mark '(') ∧
      opens (linkText o.text s) = true := by
  obtain ⟨hop, hhead, hlast, hclose⟩ := atoms_operator o
  have hne : atoms o.text ≠ [] := by cases o <;> decide +kernel
  have htext : atoms (linkText o.text s) = atoms o.text ++ atoms s := by
    rw [linkText, String.append_assoc, String.append_assoc,
      atoms_append (Bool.or_eq_true_iff.2 (.inl rfl)), atoms_append (by simp [hclose]),
      atoms_append (Bool.or_eq_true_iff.2 (.inl rfl))]
    rfl
  refine ⟨?_, ?_, by simp [linkText, opens]; decide⟩
  · rw [htext]
    exact inert_append hop h (.inr (by simp [hlast]))
  · rw [htext, List.head?_append_of_ne_nil _ hne]
    exact hhead

theorem inert_chainText {l : Level} {links : List (String × String)} {s : String}
    (hops : ∀ k ∈ links, l.accepts k.1 = true) (h : inert functionNames (atoms s) = true)
    (hlinks : ∀ k ∈ links, inert functionNames (atoms k.2) = true) :
    inert functionNames (atoms (chainText (links.map (·.1)) (s :: links.map (·.2)))) = true := by
  have hzip : List.zipWith linkText (links.map (·.1)) (links.map (·.2)) =
      links.map fun k => linkText k.1 k.2 := by
    rw [List.zipWith_map, List.zipWith_self]
  rw [chainText, hzip]
  -- the links are put behind what stands in front of them one by one
  clear hzip
  induction links generalizing s with
  | nil => simpa using h
  | cons k links ih =>
    obtain ⟨hop, hops⟩ := List.forall_mem_cons.1 hops
    obtain ⟨hk, hlinks⟩ := List.forall_mem_cons.1 hlinks
    obtain ⟨o, -, ho⟩ := Level.accepts_iff.1 hop
    obtain ⟨hlink, hstarts, hopens⟩ := inert_linkText (o := o) hk
    rw [List.map_cons, String.join_cons, ← String.append_assoc, ← ho]
    refine ih hops ?_ hlinks
    rw [atoms_append (by simp [hopens])]
    exact inert_append h hlink (.inl hstarts)

theorem inert_separated {ks : List String} {args : List (List Atom)}
    (h : ∀ a ∈ args, inert ks a = true) : inert ks (separated args) = true := by
  induction args with
  | nil => rfl
  | cons a args ih =>
    obtain ⟨ha, hargs⟩ := List.forall_mem_cons.1 h
    cases args with
    | nil => simpa [separated] using ha
    | cons b args =>
      rw [separated_cons_cons]
      have hcomma : inert ks [.mark ','] = true := rfl
      exact inert_append ha (inert_append hcomma (ih hargs) (.inr (by simp [lastWord])))
        (.inl (by simp))

theorem inert_callText {f : String} {args : List String} (hf : f ∈ functionNames)
    (h : ∀ a ∈ args, inert functionNames (atoms a) = true) :
    inert functionNames (atoms (callText f args)) = true := by
  have hname : IsName f := by
    simp only [functionNames, List.mem_cons, List.not_mem_nil, or_false] at hf
    rcases hf with rfl | rfl <;> decide +kernel
  have htext : atoms (callText f args) = applied f (args.map atoms) :=
    Piece.atoms_join [.name f hname, .text "(",
      .hole (Listing.commas args) _ (atoms_commas args), .text ")"] rfl
  rw [htext, applied]
  have hargs := inert_separated (List.forall_mem_map.2 h)
  have hclosed : inert functionNames (separated (args.map atoms) ++ [.mark ')']) = true :=
    inert_append hargs rfl (.inl (by simp))
  have hopen : inert functionNames [.word f, .mark '('] = true := by
    simp [inert, headsFrom, hf]
  exact inert_append hopen hclosed (.inr (by simp [lastWord]))

/-- In the text of an expression without references, parentheses stand behind function names or
behind no word. -/
theorem inert_text (h : Proper (fun _ => False) IsName n) :
    inert functionNames (atoms n.text) = true := by
  induction h with
  | @chain l first links _ hops _ ihfirst ihlinks =>
    have htexts : ∀ x ∈ links.map fun k => (k.1, k.2.text),
        inert functionNames (atoms x.2) = true := by
      intro x hx
      obtain ⟨k, hk, rfl⟩ := List.mem_map.1 hx
      exact ihlinks k hk
    have hchain := @inert_chainText l (links.map fun k => (k.1, k.2.text)) first.text
      (List.forall_mem_map.2 hops) ihfirst htexts
    rw [text, textList_eq_map, List.map_cons, List.map_map]
    simpa [List.map_map, Function.comp_def] using hchain
  | unary hops _ ih => exact inert_unaryText hops ih
  | call hf _ _ ih =>
    rw [text, textList_eq_map]
    exact inert_callText hf (List.forall_mem_map.2 ih)
  | ref hr => exact hr.elim
  | num v => exact inert_mono (by simp) v.inert_constant
  | @paren e _ ih =>
    have htext : atoms ("(" ++ e.text ++ ")") =
        [Atom.mark '('] ++ (atoms e.text ++ [Atom.mark ')']) :=
      Piece.atoms_join [.text "(", .hole e.text _ rfl, .text ")"] rfl
    rw [text, htext]
    exact inert_append rfl (inert_append ih rfl (.inl (by simp))) (.inr (by simp [lastWord]))
  | var hx =>
    rw [text, hx.atoms_eq]
    rfl

/-- What is known of the leaves of a proper tree. -/
theorem Proper.leaves (h : Proper ref var n) : (∀ r ∈ n.refs, ref r) ∧ ∀ x ∈ n.vars, var x := by
  induction h with
  | @chain _ first links _ _ _ ihfirst ihlinks =>
    simp only [refs, vars, mem_refsList, mem_varsList, List.mem_cons, List.mem_map]
    constructor
    · rintro r ⟨_, rfl | ⟨k, hk, rfl⟩, hr⟩
      · exact ihfirst.1 r hr
      · exact (ihlinks k hk).1 r hr
    · rintro x ⟨_, rfl | ⟨k, hk, rfl⟩, hx⟩
      · exact ihfirst.2 x hx
      · exact (ihlinks k hk).2 x hx
  | unary _ _ ih => exact ih
  | call _ _ _ ih =>
    simp only [refs, vars, mem_refsList, mem_varsList]
    constructor
    · rintro r ⟨x, hx, hr⟩
      exact (ih x hx).1 r hr
    · rintro v ⟨x, hx, hv⟩
      exact (ih x hx).2 v hv
  | ref hr => simpa [refs, vars] using hr
  | num v => simp [refs, vars]
  | paren _ ih => exact ih
  | var hx => simpa [refs, vars] using hx

end Node

end GridSweep
