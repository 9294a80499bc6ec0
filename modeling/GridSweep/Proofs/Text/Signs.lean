import GridSweep.Proofs.Kernel.Wording

/-!
# Signs in printed expressions

C reads two equal signs side by side as one operator that counts up or down. `SignsApart` says of a
text that it holds none: a sign may touch the other sign, but not itself. Texts are put together so
that this stays true, with a blank where two signs would meet or with something else between them,
and so it holds of every expression that is printed (`Node.Proper.signsApart_text`).
-/

namespace GridSweep

namespace CText

open Node (fuses linkText)

variable {s t m : String}

def isSign (c : Char) : Bool := c == '-' || c == '+'

/-- No sign stands next to the same sign. -/
def SignsApart (s : String) : Prop := s.toList.IsChain fun c d => c = d → isSign c = false

/-- There are no signs at all. -/
def Unsigned (s : String) : Prop := ∀ c ∈ s.toList, isSign c = false

instance (s : String) : Decidable (Unsigned s) :=
  decidable_of_iff (s.toList.all (!isSign ·) = true) (by simp [Unsigned])

/-- Neither decrement nor increment is part of the text. -/
theorem SignsApart.not_infix (h : SignsApart s) :
    ¬ ['-', '-'] <:+: s.toList ∧ ¬ ['+', '+'] <:+: s.toList := by
  have hdouble {c : Char} (hc : isSign c = true) : ¬ [c, c] <:+: s.toList := by
    rintro ⟨before, behind, htext⟩
    have hsign := List.isChain_iff_forall_rel_of_append_cons_cons.1 h
      (show s.toList = before ++ c :: c :: behind by simp [← htext]) rfl
    rw [hc] at hsign
    cases hsign
  exact ⟨hdouble rfl, hdouble rfl⟩

/-! ## Texts side by side -/

theorem fuses_eq_false_iff : fuses s t = false ↔
    ∀ c ∈ s.toList.getLast?, ∀ d ∈ t.toList.head?, c = d → isSign c = false := by
  constructor
  · rintro h c hlast d hhead rfl
    rw [Option.mem_def] at hlast hhead
    rw [Bool.eq_false_iff]
    intro hsign
    simp only [isSign, Bool.or_eq_true, beq_iff_eq] at hsign
    rcases hsign with rfl | rfl <;> simp [fuses, hlast, hhead] at h
  · intro h
    unfold fuses
    split
    · next hlast hhead => exact absurd (h _ hlast _ hhead rfl) (by decide)
    · next hlast hhead => exact absurd (h _ hlast _ hhead rfl) (by decide)
    · rfl

theorem SignsApart.append (hs : SignsApart s) (ht : SignsApart t) (h : fuses s t = false) :
    SignsApart (s ++ t) := by
  unfold SignsApart
  rw [String.toList_append]
  exact List.isChain_append.2 ⟨hs, ht, fuses_eq_false_iff.1 h⟩

namespace Unsigned

theorem signsApart (h : Unsigned s) : SignsApart s := by
  refine List.isChain_iff_forall_rel_of_append_cons_cons.2 fun c d before behind htext _ => ?_
  exact h c (by simp [htext])

theorem fuses_left (h : Unsigned s) : fuses s t = false :=
  fuses_eq_false_iff.2 fun c hc _ _ _ => h c (List.mem_of_getLast? hc)

theorem fuses_right (h : Unsigned t) : fuses s t = false :=
  fuses_eq_false_iff.2 fun _ _ d hd heq => heq ▸ h d (List.mem_of_head? hd)

theorem append (hs : Unsigned s) (ht : Unsigned t) : Unsigned (s ++ t) := by
  unfold Unsigned
  rw [String.toList_append]
  exact List.forall_mem_append.2 ⟨hs, ht⟩

/-- What stands at the front hides what is behind it. -/
theorem fuses_append (hm : Unsigned m) (hne : m ≠ "") : fuses s (m ++ t) = false := by
  rw [fuses_eq_false_iff, String.toList_append, List.head?_append_of_ne_nil _ (by simpa using hne)]
  exact fuses_eq_false_iff.1 hm.fuses_right

end Unsigned

theorem isSign_of_isWordPart {c : Char} (h : Lexer.isWordPart c = true) : isSign c = false := by
  rw [Bool.eq_false_iff]
  intro hsign
  simp only [isSign, Bool.or_eq_true, beq_iff_eq] at hsign
  rcases hsign with rfl | rfl <;> revert h <;> decide

theorem isSign_of_isDigit {c : Char} (h : Lexer.isDigit c = true) : isSign c = false :=
  isSign_of_isWordPart (isWordPart_of_isDigit h)

theorem IsName.unsigned (h : IsName s) : Unsigned s := fun c hc => isSign_of_isWordPart (h.2 c hc)

namespace SignsApart

/-- A text without signs keeps its neighbours apart. -/
theorem between (hs : SignsApart s) (ht : SignsApart t) (hm : Unsigned m) (hne : m ≠ "") :
    SignsApart (s ++ m ++ t) := by
  refine (hs.append hm.signsApart hm.fuses_right).append ht (fuses_eq_false_iff.2 ?_)
  rw [String.toList_append, List.getLast?_append_of_ne_nil _ (by simpa using hne)]
  exact fuses_eq_false_iff.1 hm.fuses_left

theorem glue (hs : SignsApart s) (ht : SignsApart t) : SignsApart (Node.glue s t) := by
  unfold Node.glue
  split
  · exact hs.between ht (by decide) (by decide)
  · next h => exact hs.append ht (Bool.eq_false_iff.2 h)

theorem unaryText {ops : List String} (hops : ∀ op ∈ ops, SignsApart op) (hs : SignsApart s) :
    SignsApart (Node.unaryText ops s) := by
  suffices hacc : ∀ a, SignsApart a → SignsApart (ops.foldl Node.glue a) from
    (hacc "" .nil).glue hs
  induction ops with
  | nil => exact fun a ha => ha
  | cons op ops ih =>
    obtain ⟨hop, hrest⟩ := List.forall_mem_cons.1 hops
    exact fun a ha => ih hrest _ (ha.glue hop)

theorem links {ι : Type} {op text : ι → String} {ks : List ι} (hs : SignsApart s)
    (h : ∀ k ∈ ks, SignsApart (op k) ∧ SignsApart (text k)) :
    SignsApart (s ++ String.join (ks.map fun k => linkText (op k) (text k))) := by
  induction ks generalizing s with
  | nil => simpa using hs
  | cons k ks ih =>
    obtain ⟨⟨hop, htext⟩, hrest⟩ := List.forall_mem_cons.1 h
    have hblank : Unsigned " " := by decide
    have hlink := (hs.between hop hblank (by decide)).between htext hblank (by decide)
    have hsame : s ++ String.join ((k :: ks).map fun k => linkText (op k) (text k)) =
        s ++ " " ++ op k ++ " " ++ text k ++
          String.join (ks.map fun k => linkText (op k) (text k)) := by
      simp [linkText, String.append_assoc]
    rw [hsame]
    exact ih hlink hrest

theorem commas {items : List String} (h : ∀ s ∈ items, SignsApart s) :
    SignsApart (Listing.commas items) := by
  unfold Listing.commas
  induction items with
  | nil => exact .nil
  | cons s items ih =>
    obtain ⟨hs, hrest⟩ := List.forall_mem_cons.1 h
    cases items with
    | nil => simpa using hs
    | cons t items =>
      rw [String.intercalate_cons_cons]
      exact hs.between (ih hrest) (by decide) (by decide)

theorem paren (hs : SignsApart s) : SignsApart ("(" ++ s ++ ")") := by
  have hopen : Unsigned "(" := by decide
  have hclose : Unsigned ")" := by decide
  exact (hopen.signsApart.append hs hopen.fuses_left).append hclose.signsApart hclose.fuses_right

/-- A name with a list of texts in parentheses. -/
theorem application {items : List String} (hs : Unsigned s) (h : ∀ t ∈ items, SignsApart t) :
    SignsApart (s ++ "(" ++ Listing.commas items ++ ")") := by
  have hargs := hs.signsApart.append (commas h).paren hs.fuses_left
  rwa [← String.append_assoc, ← String.append_assoc] at hargs

end SignsApart

theorem signsApart_operator (o : Operator) : SignsApart o.text := by
  unfold SignsApart
  cases o <;> decide

theorem signsApart_toString (i : Int) : SignsApart (toString i) := by
  cases i with
  | ofNat k => exact (isName_toString k).unsigned.signsApart
  | negSucc k =>
    have hdigits := (isName_toString (k + 1)).unsigned
    exact (signsApart_operator .minus).append hdigits.signsApart hdigits.fuses_right

end CText

open CText

/-! ## Numbers -/

theorem Decimal.signsApart_scientific (d : Decimal) :
    SignsApart d.scientific ∧ Node.fuses "-" d.scientific = false := by
  have hdigits : ∀ c ∈ d.digitChars, isSign c = false := fun c hc =>
    isSign_of_isDigit (Lexer.isDigit_of_mem_toDigits hc)
  -- the digits stand in front of the exponent, which has a sign of its own
  have hexponent {m : String} (hm : Unsigned m) (hne : m ≠ "") (e : Int) :
      SignsApart (m ++ toString e) ∧ Node.fuses "-" (m ++ toString e) = false :=
    ⟨hm.signsApart.append (signsApart_toString e) hm.fuses_left, hm.fuses_append hne⟩
  unfold scientific
  split
  · exact ⟨.nil, rfl⟩
  · next c hone =>
    rw [hone, List.forall_mem_singleton] at hdigits
    refine hexponent ?_ (by simp) _
    simpa [Unsigned, hdigits] using isSign_of_isWordPart (c := 'e') rfl
  · next c cs _ hmany =>
    rw [hmany, List.forall_mem_cons] at hdigits
    refine hexponent (Unsigned.append ?_ (by decide)) (by simp) _
    have hpoint : isSign '.' = false := rfl
    simpa [Unsigned, hdigits.1, hpoint] using hdigits.2

namespace Binary64

theorem signsApart_withSign {s : String} (hs : SignsApart s) (hfront : Node.fuses "-" s = false)
    (x : Binary64) : SignsApart (x.withSign s) := by
  unfold withSign
  split
  · exact (signsApart_operator .minus).append hs hfront
  · exact hs

theorem signsApart_constant (x : Binary64) : SignsApart x.constant := by
  have hunsigned {s : String} (hs : Unsigned s) : SignsApart (x.withSign s) :=
    signsApart_withSign hs.signsApart hs.fuses_right x
  unfold constant
  split
  · exact Unsigned.signsApart (by decide)
  split
  · exact hunsigned (by decide)
  split
  · obtain ⟨hapart, hfront⟩ := x.shortest.signsApart_scientific
    exact signsApart_withSign hapart hfront x
  split
  · exact hunsigned ((isName_toString _).unsigned.append (by decide))
  · exact hunsigned (x.shortest.forall_mem_positional (fun _ => isSign_of_isDigit) rfl)

end Binary64

/-! ## Expressions -/

namespace Node

variable {n : Node}

/-- The text of an expression, by the ways in which texts are put together. -/
theorem Proper.signsApart_text (h : Proper (fun r => IsName r.name) IsName n) :
    SignsApart n.text := by
  induction h with
  | @chain l first links _ hops _ ihfirst ihlinks =>
    have hlinks : List.zipWith linkText (links.map (·.1)) (textList (links.map (·.2))) =
        links.map fun k => linkText k.1 k.2.text := by
      rw [textList_eq_map, List.map_map, List.zipWith_map, List.zipWith_self]
      rfl
    rw [text, textList, chainText, hlinks]
    refine ihfirst.links fun k hk => ⟨?_, ihlinks k hk⟩
    obtain ⟨o, -, htext⟩ := Level.accepts_iff.1 (hops k hk)
    exact htext ▸ signsApart_operator o
  | unary hops _ ih =>
    refine SignsApart.unaryText (fun op hop => ?_) ih
    obtain ⟨o, -, rfl⟩ := Operator.isPrefixSpelling_iff.1 (hops op hop)
    exact signsApart_operator o
  | call hf _ _ ih =>
    have hname := isName_of_isIdentifier (isIdentifier_of_mem_functionNames hf)
    rw [text, textList_eq_map]
    exact .application hname.unsigned (List.forall_mem_map.2 ih)
  | ref hr =>
    exact .application hr.unsigned (List.forall_mem_map.2 fun i _ => signsApart_toString i)
  | num v => exact v.signsApart_constant
  | paren _ ih => exact ih.paren
  | var hx => exact hx.unsigned.signsApart

/-- The tree is printed, and the text has neither a decrement nor an increment. -/
def PrintsApart (n : Node) : Prop :=
  ∃ text, n.render? = some text ∧ ¬ ['-', '-'] <:+: text.toList ∧ ¬ ['+', '+'] <:+: text.toList

theorem Proper.printsApart (h : Proper (fun r => IsName r.name) IsName n) : n.PrintsApart :=
  ⟨n.text, h.render?, h.signsApart_text.not_infix⟩

/-- References become variables whose names are words too. -/
theorem Proper.printsApart_renameRefs {m : Node} {origin : List Int}
    (h : Proper (fun r => IsName r.name) IsName n) (hm : n.renameRefs origin = .ok m) :
    m.PrintsApart := by
  rw [eq_mapRefs_of_renameRefs hm]
  exact (h.mapRefs (fun _ hx => hx) fun r hr => Offset.isName_tapName hr _).printsApart

end Node

/-- An expression whose names are words is printed without decrement and increment: as it is
lowered, simplified, and over lane values in place of the references of either. -/
theorem printed_signs_apart {e : Surface.Expr} {n : Node} (h : e.lower = .ok n)
    (hrefs : ∀ r ∈ n.refs, IsName r.name) (hvars : ∀ x ∈ n.vars, IsName x) :
    n.simplify? = some n.simplify ∧ ∀ m ∈ [n, n.simplify],
      m.PrintsApart ∧ ∀ origin m', m.renameRefs origin = .ok m' → m'.PrintsApart := by
  have hproper : n.Proper (fun r => IsName r.name) IsName :=
    (Surface.Expr.proper_of_lower h).of_leaves hrefs hvars
  have hboth : ∀ m ∈ [n, n.simplify], m.Proper (fun r => IsName r.name) IsName := by
    simpa using ⟨hproper, hproper.simplify⟩
  refine ⟨hproper.simplify?, fun m hm => ?_⟩
  exact ⟨(hboth m hm).printsApart, fun origin m' => (hboth m hm).printsApart_renameRefs⟩

/-- Signs in front of signs, of a negative literal and of the operands of a chain. -/
theorem nested_signs_apart :
    let e : Surface.Expr := .binary "AddSub"
      [.unary ["-", "-"] (.operand (.num ⟨0xBFF0000000000000⟩)),
        .unary ["+"] (.unary ["+", "-"] (.operand (.ref ⟨"a", [0, -1]⟩))), .operand (.var "x")]
      ["-", "+"]
    let n : Node := .chain .sum
      [.unary ["-", "-"] (.operand (.num ⟨0xBFF0000000000000⟩)),
        .unary ["+"] (.unary ["+", "-"] (.operand (.ref ⟨"a", [0, -1]⟩))), .operand (.var "x")]
      ["-", "+"]
    e.lower = .ok n ∧ n.render? = some "- - -1.0 - + +-a(0, -1) + x" ∧ n.PrintsApart ∧
      n.simplify.PrintsApart ∧ ∃ m, n.renameRefs [0, 0] = .ok m ∧ m.PrintsApart := by
  intro e n
  have hlower : e.lower = .ok n := rfl
  have hrefs : ∀ r ∈ n.refs, IsName r.name := List.forall_mem_singleton.2 (by decide)
  have hvars : ∀ x ∈ n.vars, IsName x := List.forall_mem_singleton.2 (by decide)
  obtain ⟨-, hprints⟩ := printed_signs_apart hlower hrefs hvars
  obtain ⟨hn, hrenamed⟩ := hprints n (by simp)
  have hsimplified := (hprints n.simplify (by simp)).1
  exact ⟨hlower, by decide, hn, hsimplified, _, rfl, hrenamed [0, 0] _ rfl⟩

end GridSweep
