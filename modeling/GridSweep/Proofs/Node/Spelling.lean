import GridSweep.Node.Printer
import GridSweep.Proofs.Surface.Grammar
import GridSweep.Proofs.Token.Numerals

/-!
# Printed texts and their tokens

`Spells s ts` says that the text `s` lexes to the tokens `ts`, with anything behind it that makes no
word, number or operator longer. The printer puts texts together in a few ways, and each of them has
a lemma here that puts their tokens together in the same way.
-/

namespace GridSweep

open Lexer

/-- A text that lexes to these tokens. It does not start with an equals sign, which would turn an
exclamation mark in front of it into another operator. -/
structure Spells (s : String) (ts : List Token) : Prop where
  opens : s.toList.head? ≠ some '='
  lexes : ∀ r, Stops r → tokens (s.toList ++ r) = ts.map some ++ tokens r

variable {s : String} {ts : List Token} {r : List Char}

theorem stops_nil : Stops [] := by simp [Stops]

theorem stops_blank (cs : List Char) : Stops (' ' :: cs) := by
  intro c hc
  cases hc
  decide

theorem stops_lparen (cs : List Char) : Stops ('(' :: cs) := by
  intro c hc
  cases hc
  decide

theorem stops_rparen (cs : List Char) : Stops (')' :: cs) := by
  intro c hc
  cases hc
  decide

theorem stops_comma (cs : List Char) : Stops (',' :: cs) := by
  intro c hc
  cases hc
  decide

/-- The whole text. -/
theorem Spells.tokens_eq (h : Spells s ts) : tokens s.toList = ts.map some := by
  have := h.lexes [] stops_nil
  simpa using this

theorem Spells.head_append (h : Spells s ts) (hr : Stops r) :
    (s.toList ++ r).head? ≠ some '=' := by
  cases hs : s.toList with
  | nil => exact fun heq => (hr '=' heq).2.2 rfl
  | cons c cs =>
    have := h.opens
    rw [hs] at this
    simpa using this

theorem tokens_equals (cs : List Char) :
    ∃ t us, tokens ('=' :: cs) = some t :: us ∧ (t = .equals ∨ t = .operator .eqEq) := by
  rw [tokens_cons]
  change ∃ t us, (scanSymbol '=' cs).piece.tokens ++ _ = _ ∧ _
  unfold scanSymbol
  split
  · exact ⟨_, _, rfl, .inl rfl⟩
  · split
    · next t ht =>
      refine ⟨t, _, rfl, ?_⟩
      unfold pair? at ht
      split at ht <;> simp_all
    · exact ⟨_, _, rfl, .inl rfl⟩

/-- Only two tokens are spelled with an equals sign in front. -/
theorem Spells.of_lexes {t : Token} (ht : t ≠ .equals ∧ t ≠ .operator .eqEq)
    (h : ∀ r, Stops r → tokens (s.toList ++ r) = (t :: ts).map some ++ tokens r) :
    Spells s (t :: ts) := by
  refine ⟨fun heq => ?_, h⟩
  obtain ⟨cs, hs⟩ := List.head?_eq_some_iff.1 heq
  obtain ⟨u, us, htokens, hu⟩ := tokens_equals cs
  have hnil := h [] stops_nil
  rw [List.append_nil, hs, htokens, List.map_cons, List.cons_append, List.cons.injEq] at hnil
  cases hnil.1
  exact hu.elim ht.1 ht.2

/-! ## Leaves -/

theorem spells_identifier {name : String} (h : isIdentifier name = true) :
    Spells name [.ident name] :=
  .of_lexes (by simp) fun _ hr => tokens_identifier h hr.word

theorem spells_natural {n : ℕ} (h : n < 2 ^ 63) : Spells (toString n) [.int n] :=
  .of_lexes (by simp) fun _ hr => tokens_natural h hr

theorem Spells.prepend {op : Operator} (hop : op ∈ Operator.prefixes) (h : Spells s ts) :
    Spells (op.text ++ s) (.operator op :: ts) := by
  refine .of_lexes ⟨by simp, ?_⟩ fun r hr => ?_
  · intro heq
    cases heq
    revert hop
    decide
  · rw [String.toList_append, List.append_assoc, tokens_prefix hop (h.head_append hr), h.lexes r hr]
    rfl

theorem Spells.blank (h : Spells s ts) : Spells (" " ++ s) ts := by
  refine ⟨by simp, fun r hr => ?_⟩
  rw [String.toList_append, List.append_assoc]
  exact (tokens_blank _).trans (h.lexes r hr)

/-- An index is spelled with its sign in front. -/
theorem spells_index {i : ℤ} (h : i.natAbs < 2 ^ 63) :
    ∃ ts, Surface.IsIndex ts i ∧ Spells (toString i) ts := by
  cases i with
  | ofNat n => exact ⟨_, .plain n, spells_natural h⟩
  | negSucc n =>
    have hminus : Operator.minus ∈ Operator.prefixes := by decide
    exact ⟨_, .negative (n + 1), (@spells_natural (n + 1) h).prepend hminus⟩

/-- A constant is spelled with its sign in front. -/
theorem spells_constant {v : Binary64} (h : v.IsFinite) :
    Spells v.constant
      (if v.isNegative then [.operator .minus, .float v.neg] else [.float v]) := by
  have hpositive {v : Binary64} (h : v.IsFinite) (hsign : v.isNegative = false) :
      Spells v.constant [.float v] :=
    .of_lexes (by simp) fun _ hr => Binary64.tokens_constant h hsign hr
  cases hsign : v.isNegative with
  | false => exact hpositive h hsign
  | true =>
    rw [Binary64.constant_of_isNegative h hsign]
    have hminus : Operator.minus ∈ Operator.prefixes := by decide
    exact (hpositive (Binary64.isFinite_neg.2 h) (by simp [hsign])).prepend hminus

/-! ## Prefix operators -/

namespace Node

theorem glue_nil (b : String) : glue "" b = b := by
  simp [glue, fuses]

theorem fuses_glue_left {a b c : String} (hb : b ≠ "") : fuses (glue a b) c = fuses b c := by
  have hlast : (glue a b).toList.getLast? = b.toList.getLast? := by
    obtain ⟨cs, d, hlast⟩ := (List.eq_nil_or_concat b.toList).resolve_left (by simpa using hb)
    unfold glue
    split <;> simp [List.getLast?_append, List.getLast?_cons, hlast]
  rw [fuses, hlast, fuses]

theorem fuses_glue_right {a b c : String} (hb : b ≠ "") : fuses a (glue b c) = fuses a b := by
  have hhead : (glue b c).toList.head? = b.toList.head? := by
    have hne : b.toList ≠ [] := by simpa using hb
    unfold glue
    split <;> simp [List.head?_append, List.head?_eq_some_head hne]
  rw [fuses, hhead, fuses]

theorem glue_assoc {a b c : String} (hb : b ≠ "") : glue (glue a b) c = glue a (glue b c) := by
  have hleft := fuses_glue_left (a := a) (c := c) hb
  have hright := fuses_glue_right (a := a) (c := c) hb
  unfold glue at *
  rw [hleft, hright]
  split <;> split <;> simp [String.append_assoc]

/-- Prefix operators are put in front one by one. -/
theorem unaryText_eq_foldr {ops : List String} (h : ∀ op ∈ ops, op ≠ "") (s : String) :
    unaryText ops s = ops.foldr glue s := by
  have hany (a : String) : glue (ops.foldl glue a) s = glue a (ops.foldr glue s) := by
    induction ops generalizing a with
    | nil => rfl
    | cons op ops ih =>
      obtain ⟨hop, hops⟩ := List.forall_mem_cons.1 h
      rw [List.foldl_cons, ih hops, glue_assoc hop, List.foldr_cons]
  rw [unaryText, hany, glue_nil]

end Node

theorem Spells.unary {ops : List Operator} (hops : ∀ op ∈ ops, op ∈ Operator.prefixes)
    (h : Spells s ts) :
    Spells (Node.unaryText (ops.map (·.text)) s) (ops.map .operator ++ ts) := by
  have hne : ∀ op ∈ ops.map (·.text), op ≠ "" := by
    intro op hop
    obtain ⟨o, -, rfl⟩ := List.mem_map.1 hop
    cases o <;> decide
  rw [Node.unaryText_eq_foldr hne]
  clear hne
  induction ops with
  | nil => exact h
  | cons op ops ih =>
    obtain ⟨hop, hops⟩ := List.forall_mem_cons.1 hops
    rw [List.map_cons, List.foldr_cons, List.map_cons, List.cons_append, Node.glue]
    split
    · rw [String.append_assoc]
      exact (ih hops).blank.prepend hop
    · exact (ih hops).prepend hop

/-! ## Chains, lists and parentheses -/

section

variable {ι : Type} {xs : List ι} {text : ι → String} {spelling : ι → List Token}

theorem tokens_links (op : ι → Operator) (h : ∀ i ∈ xs, Spells (text i) (spelling i))
    (hr : Stops r) :
    Stops ((String.join (xs.map fun i => Node.linkText (op i).text (text i))).toList ++ r) ∧
      tokens ((String.join (xs.map fun i => Node.linkText (op i).text (text i))).toList ++ r) =
        (xs.flatMap fun i => .operator (op i) :: spelling i).map some ++ tokens r := by
  induction xs with
  | nil => simpa using hr
  | cons i xs ih =>
    obtain ⟨hi, hxs⟩ := List.forall_mem_cons.1 h
    obtain ⟨hstops, htokens⟩ := ih hxs
    set more := (String.join (xs.map fun i => Node.linkText (op i).text (text i))).toList with hmore
    have htext :
        (String.join ((i :: xs).map fun i => Node.linkText (op i).text (text i))).toList ++ r =
          ' ' :: ((op i).text.toList ++ ' ' :: ((text i).toList ++ (more ++ r))) := by
      simp [Node.linkText, hmore]
    rw [htext, tokens_blank, tokens_operator, hi.lexes _ hstops, htokens]
    exact ⟨stops_blank _, by simp⟩

theorem Spells.chain (op : ι → Operator) (hfirst : Spells s ts)
    (h : ∀ i ∈ xs, Spells (text i) (spelling i)) :
    Spells (Node.chainText (xs.map fun i => (op i).text) (s :: xs.map text))
      (ts ++ xs.flatMap fun i => .operator (op i) :: spelling i) := by
  have hjoin : List.zipWith Node.linkText (xs.map fun i => (op i).text) (xs.map text) =
      xs.map fun i => Node.linkText (op i).text (text i) := by
    rw [List.zipWith_map, List.zipWith_self]
  rw [Node.chainText, hjoin]
  constructor
  · obtain ⟨hstops, -⟩ := tokens_links op h stops_nil
    have := hfirst.head_append hstops
    simpa using this
  · intro r hr
    obtain ⟨hstops, htokens⟩ := tokens_links op h hr
    rw [String.toList_append, List.append_assoc, hfirst.lexes _ hstops, htokens, List.map_append,
      List.append_assoc]

theorem tokens_listing {α : Type} {φ : ι → Surface.Phrase α} (hne : xs ≠ [])
    (h : ∀ i ∈ xs, Spells (text i) (φ i).tokens) (hr : Stops r) :
    tokens ((Listing.commas (xs.map text)).toList ++ r) =
      (Surface.listing (xs.map φ)).map some ++ tokens r := by
  obtain ⟨i, xs, rfl⟩ := List.exists_cons_of_ne_nil hne
  clear hne
  induction xs generalizing i with
  | nil => simpa [Listing.commas, Surface.listing] using (h i List.mem_cons_self).lexes r hr
  | cons j xs ih =>
    obtain ⟨hi, hxs⟩ := List.forall_mem_cons.1 h
    have htext : (Listing.commas ((i :: j :: xs).map text)).toList ++ r =
        (text i).toList ++ ',' :: ' ' :: ((Listing.commas ((j :: xs).map text)).toList ++ r) := by
      simp [Listing.commas]
    rw [htext, hi.lexes _ (stops_comma _), tokens_comma, tokens_blank, ih j hxs]
    simp [Surface.listing]

/-- A name with a list in parentheses behind it. -/
theorem spells_application {α : Type} {name : String} {φ : ι → Surface.Phrase α}
    (hname : isIdentifier name = true) (hne : xs ≠ [])
    (h : ∀ i ∈ xs, Spells (text i) (φ i).tokens) :
    Spells (name ++ "(" ++ Listing.commas (xs.map text) ++ ")")
      (.ident name :: .lparen :: (Surface.listing (xs.map φ) ++ [.rparen])) := by
  refine .of_lexes (by simp) fun r hr => ?_
  have htext : (name ++ "(" ++ Listing.commas (xs.map text) ++ ")").toList ++ r =
      name.toList ++ '(' :: ((Listing.commas (xs.map text)).toList ++ ')' :: r) := by
    simp
  rw [htext, tokens_identifier hname (stops_lparen _).word, tokens_lparen,
    tokens_listing hne h (stops_rparen r), tokens_rparen]
  simp

end

theorem Spells.paren (h : Spells s ts) :
    Spells ("(" ++ s ++ ")") (.lparen :: (ts ++ [.rparen])) := by
  refine .of_lexes (by simp) fun r hr => ?_
  have htext : ("(" ++ s ++ ")").toList ++ r = '(' :: (s.toList ++ ')' :: r) := by simp
  rw [htext, tokens_lparen, h.lexes _ (stops_rparen r), tokens_rparen]
  simp

end GridSweep
