import GridSweep.Level
import GridSweep.Token.Lexer
import Mathlib.Algebra.Group.Nat.Defs

/-!
# Tokens of a text

`tokens` gives the tokens of a text without their places. It reads a piece and goes on with the rest
(`tokens_cons`), so what a piece at the front gives can be said for any continuation: blanks give
nothing, and a symbol, an operator or a word gives its token unless the continuation makes it
longer.
-/

namespace GridSweep

/-- A word that is not a keyword. -/
def isIdentifier (name : String) : Bool :=
  match name.toList with
  | [] => false
  | c :: cs => Lexer.isWordStart c && cs.all Lexer.isWordPart && (Keyword.ofText? name).isNone

/-- A token as it can come out of a text. -/
def Token.Lexical : Token → Prop
  | .ident name => isIdentifier name = true
  | .int n => n < 2 ^ 63
  | _ => True

namespace Lexer

variable {c : Char} {cs r : List Char} {t : Token}

/-! ## Reading piece by piece -/

/-- The tokens of a text in order, with `none` in the place of an error. -/
def tokens (cs : List Char) : List (Option Token) := (lexFrom cs.length 0 cs).map (·.token)

/-- What a piece contributes. -/
def Piece.tokens : Piece → List (Option Token)
  | .blank => []
  | .token t => [some t]
  | .error => [none]

theorem length_scan_rest (c : Char) (cs : List Char) : (scan c cs).rest.length ≤ cs.length := by
  have happend := congrArg List.length (scan_append c cs)
  have hne := List.length_pos_iff.2 (scan_ne_nil c cs)
  rw [List.length_append, List.length_cons] at happend
  omega

theorem lexFrom_succ_cons (fuel start : Nat) (c : Char) (cs : List Char) :
    (lexFrom (fuel + 1) start (c :: cs)).map (·.token) = (scan c cs).piece.tokens ++
      (lexFrom fuel (start + width (scan c cs).covered) (scan c cs).rest).map (·.token) := by
  rw [lexFrom]
  cases (scan c cs).piece <;> rfl

/-- Neither the place of a text nor rounds to spare change its tokens. -/
theorem map_token_lexFrom (fuel start : Nat) (h : cs.length ≤ fuel) :
    (lexFrom fuel start cs).map (·.token) = tokens cs := by
  suffices hany : ∀ (fuel fuel' start start' : Nat) (cs : List Char), cs.length ≤ fuel →
      cs.length ≤ fuel' →
      (lexFrom fuel start cs).map (·.token) = (lexFrom fuel' start' cs).map (·.token) from
    hany _ _ _ _ _ h (Nat.le_refl _)
  intro fuel
  induction fuel with
  | zero =>
    intro fuel' start start' cs h _
    obtain rfl := List.length_eq_zero_iff.1 (Nat.le_zero.1 h)
    cases fuel' <;> rfl
  | succ fuel ih =>
    intro fuel' start start' cs h h'
    cases cs with
    | nil => cases fuel' <;> rfl
    | cons c cs =>
      obtain ⟨fuel', rfl⟩ : ∃ k, fuel' = k + 1 := ⟨fuel' - 1, by simp at h'; omega⟩
      have hrest := length_scan_rest c cs
      rw [List.length_cons] at h h'
      rw [lexFrom_succ_cons, lexFrom_succ_cons, ih fuel' _ _ _ (by omega) (by omega)]

@[simp] theorem tokens_nil : tokens [] = [] := rfl

theorem tokens_cons (c : Char) (cs : List Char) :
    tokens (c :: cs) = (scan c cs).piece.tokens ++ tokens (scan c cs).rest := by
  rw [← map_token_lexFrom _ _ (length_scan_rest c cs), ← lexFrom_succ_cons]
  rfl

theorem map_token_lex (source : String) : (lex source).map (·.token) = tokens source.toList := rfl

/-! ## Blanks -/

theorem tokens_cons_of_isBlank (h : isBlank c = true) :
    tokens (c :: cs) = tokens (cs.dropWhile isBlank) := by
  rw [tokens_cons, scan, if_pos h]
  rfl

@[simp] theorem tokens_dropWhile_isBlank (cs : List Char) :
    tokens (cs.dropWhile isBlank) = tokens cs := by
  cases cs with
  | nil => rfl
  | cons c cs =>
    by_cases h : isBlank c = true
    · rw [List.dropWhile_cons_of_pos h, tokens_cons_of_isBlank h]
    · rw [List.dropWhile_cons_of_neg h]

@[simp] theorem tokens_blank (cs : List Char) : tokens (' ' :: cs) = tokens cs := by
  rw [tokens_cons_of_isBlank rfl, tokens_dropWhile_isBlank]

/-! ## Symbols -/

theorem kind_of_single? (h : single? c = some t) :
    isBlank c = false ∧ isDigit c = false ∧ isWordStart c = false := by
  unfold single? at h
  split at h <;> first | decide | cases h

/-- A character that is a token by itself, unless it makes a longer one with the next. -/
theorem scan_single (h : single? c = some t) (hcomment : isCommentStart c cs = false)
    (hpair : ∀ d ∈ cs.head?, pair? c d = none) : scan c cs = ⟨.token t, [c], cs⟩ := by
  obtain ⟨hblank, hdigit, hstart⟩ := kind_of_single? h
  have hpiece : singlePiece c = .token t := by rw [singlePiece, h]
  have hscan : scanSymbol c cs = ⟨.token t, [c], cs⟩ := by
    cases cs with
    | nil => rw [scanSymbol, hpiece]
    | cons d cs =>
      rw [scanSymbol, hpair d rfl]
      dsimp only
      rw [hpiece]
  rw [scan, hblank, hdigit, hstart, hcomment]
  exact hscan

theorem tokens_symbol (h : single? c = some t) (hcomment : isCommentStart c cs = false)
    (hpair : ∀ d ∈ cs.head?, pair? c d = none) : tokens (c :: cs) = some t :: tokens cs := by
  rw [tokens_cons, scan_single h hcomment hpair]
  rfl

/-- Parentheses and commas never join with what follows. -/
@[simp] theorem tokens_lparen (cs : List Char) : tokens ('(' :: cs) = some .lparen :: tokens cs :=
  tokens_symbol rfl rfl fun _ _ => rfl

@[simp] theorem tokens_rparen (cs : List Char) : tokens (')' :: cs) = some .rparen :: tokens cs :=
  tokens_symbol rfl rfl fun _ _ => rfl

@[simp] theorem tokens_comma (cs : List Char) : tokens (',' :: cs) = some .comma :: tokens cs :=
  tokens_symbol rfl rfl fun _ _ => rfl

/-- A binary operator stands in front of a blank. -/
theorem tokens_operator (op : Operator) (cs : List Char) :
    tokens (op.text.toList ++ ' ' :: cs) = some (.operator op) :: tokens cs := by
  rw [← tokens_blank cs]
  cases op
  all_goals
    first
    | exact tokens_symbol rfl rfl fun _ hd => by cases hd; rfl
    | exact tokens_cons _ _

theorem pair?_bang {d : Char} (h : d ≠ '=') : pair? '!' d = none := by
  unfold pair?
  split <;> simp_all

/-- A prefix operator stands in front of anything but an equals sign. -/
theorem tokens_prefix {op : Operator} (h : op ∈ Operator.prefixes) (hcs : cs.head? ≠ some '=') :
    tokens (op.text.toList ++ cs) = some (.operator op) :: tokens cs := by
  simp only [Operator.prefixes, List.mem_cons, List.not_mem_nil, or_false] at h
  rcases h with rfl | rfl | rfl | rfl
  · exact tokens_symbol rfl rfl fun _ _ => rfl
  · exact tokens_symbol rfl rfl fun _ _ => rfl
  · exact tokens_symbol rfl rfl fun _ _ => rfl
  · exact tokens_symbol rfl rfl fun d hd => pair?_bang (by rintro rfl; exact hcs hd)

/-! ## Words and numbers -/

theorem takeWhile_append_of_stop {p : Char → Bool} (h : ∀ c ∈ cs, p c = true)
    (hr : ∀ c ∈ r.head?, p c = false) :
    (cs ++ r).takeWhile p = cs ∧ (cs ++ r).dropWhile p = r := by
  rw [List.takeWhile_append_of_pos h, List.dropWhile_append_of_pos h]
  cases r with
  | nil => simp
  | cons d r => simp [hr d rfl]

/-- Letters and digits are apart. -/
theorem isDigit_of_isAlpha (h : c.isAlpha = true) : isDigit c = false := by
  rw [Bool.eq_false_iff]
  intro hdigit
  change (decide (48 ≤ c.val) && decide (c.val ≤ 57)) = true at hdigit
  change (decide (65 ≤ c.val ∧ c.val ≤ 90) ||
    decide (97 ≤ c.val) && decide (c.val ≤ 122)) = true at h
  simp only [Bool.or_eq_true, Bool.and_eq_true, decide_eq_true_eq, UInt32.le_iff_toNat_le,
    UInt32.reduceToNat] at h hdigit
  omega

theorem kind_of_isWordStart (h : isWordStart c = true) :
    isBlank c = false ∧ isDigit c = false ∧ c ≠ '/' := by
  refine ⟨?_, ?_, ?_⟩
  · rw [Bool.eq_false_iff]
    intro hblank
    simp only [isBlank, Bool.or_eq_true, beq_iff_eq] at hblank
    rcases hblank with ((rfl | rfl) | rfl) | rfl <;> revert h <;> decide
  · simp only [isWordStart, Bool.or_eq_true, beq_iff_eq] at h
    rcases h with halpha | rfl
    · exact isDigit_of_isAlpha halpha
    · decide
  · rintro rfl
    revert h
    decide

/-- A word takes all that can go on with it. -/
theorem scan_word (hc : isWordStart c = true) (hw : ∀ d ∈ cs, isWordPart d = true)
    (hr : ∀ d ∈ r.head?, isWordPart d = false) :
    scan c (cs ++ r) = ⟨.token (.ofWord (String.ofList (c :: cs))), c :: cs, r⟩ := by
  obtain ⟨htake, hdrop⟩ := takeWhile_append_of_stop hw hr
  obtain ⟨hblank, hdigit, hslash⟩ := kind_of_isWordStart hc
  have hcomment : isCommentStart c (cs ++ r) = false := by
    unfold isCommentStart
    split
    · exact absurd rfl hslash
    · rfl
  simp only [scan, hblank, hdigit, hcomment, hc, htake, hdrop, Bool.false_eq_true, if_false,
    if_true]

theorem tokens_identifier {name : String} (h : isIdentifier name = true)
    (hr : ∀ c ∈ r.head?, isWordPart c = false) :
    tokens (name.toList ++ r) = some (.ident name) :: tokens r := by
  unfold isIdentifier at h
  split at h
  · cases h
  next c cs hname =>
  simp only [Bool.and_eq_true, List.all_eq_true, Option.isNone_iff_eq_none] at h
  obtain ⟨⟨hstart, hparts⟩, hkeyword⟩ := h
  have hword : String.ofList (c :: cs) = name := by rw [← hname, String.ofList_toList]
  rw [hname, List.cons_append, tokens_cons, scan_word hstart hparts hr, hword, Token.ofWord,
    hkeyword]
  rfl

/-- A number takes all digits in front and goes on behind them. -/
theorem scan_digits (hc : isDigit c = true) (hw : ∀ d ∈ cs, isDigit d = true)
    (hr : ∀ d ∈ r.head?, isDigit d = false) : scan c (cs ++ r) = scanNumber (c :: cs) r := by
  obtain ⟨htake, hdrop⟩ := takeWhile_append_of_stop hw hr
  have hblank : isBlank c = false := by
    rw [Bool.eq_false_iff]
    intro hblank
    simp only [isBlank, Bool.or_eq_true, beq_iff_eq] at hblank
    rcases hblank with ((rfl | rfl) | rfl) | rfl <;> revert hc <;> decide
  have hcomment : isCommentStart c (cs ++ r) = false := by
    unfold isCommentStart
    split
    · revert hc
      decide
    · rfl
  simp only [scan, hblank, hcomment, hc, htake, hdrop, Bool.false_eq_true, if_false, if_true]

/-! ## Tokens that come out of a text -/

theorem isIdentifier_of_word {word : List Char} (hstart : ∀ c ∈ word.head?, isWordStart c = true)
    (hne : word ≠ []) (hparts : ∀ c ∈ word.tail, isWordPart c = true)
    (hkeyword : Keyword.ofText? (String.ofList word) = none) :
    isIdentifier (String.ofList word) = true := by
  cases word with
  | nil => exact absurd rfl hne
  | cons c cs =>
    simp only [isIdentifier, String.toList_ofList, hkeyword, hstart c rfl, Option.isNone_none,
      Bool.true_and, Bool.and_true, List.all_eq_true]
    exact hparts

theorem lexical_ofWord {word : List Char} (hstart : ∀ c ∈ word.head?, isWordStart c = true)
    (hne : word ≠ []) (hparts : ∀ c ∈ word.tail, isWordPart c = true) :
    (Token.ofWord (String.ofList word)).Lexical := by
  unfold Token.ofWord
  split
  · trivial
  next hkeyword => exact isIdentifier_of_word hstart hne hparts hkeyword

theorem lexical_scanNumber {whole : List Char} (h : (scanNumber whole cs).piece = .token t) :
    t.Lexical := by
  unfold scanNumber at h
  split at h
  · unfold scanFloat at h
    split at h <;> cases h <;> trivial
  split at h
  · cases h
    trivial
  · simp only [intToken] at h
    split at h
    · next hlt =>
      cases h
      exact hlt
    · cases h

theorem lexical_scanSymbol (h : (scanSymbol c cs).piece = .token t) : t.Lexical := by
  have hsingle {c : Char} (h : singlePiece c = .token t) : t.Lexical := by
    unfold singlePiece single? at h
    split at h
    · next hc =>
      cases h
      split at hc <;> cases hc <;> trivial
    · cases h
  unfold scanSymbol at h
  split at h
  · exact hsingle h
  split at h
  · next hpair =>
    cases h
    unfold pair? at hpair
    split at hpair <;> cases hpair <;> trivial
  · exact hsingle h

theorem lexical_scan (h : (scan c cs).piece = .token t) : t.Lexical := by
  unfold scan at h
  split at h
  · cases h
  split at h
  · cases h
  split at h
  · exact lexical_scanNumber h
  split at h
  · next hstart =>
    cases h
    refine lexical_ofWord (by simpa using hstart) (by simp) fun d hd => ?_
    exact List.all_eq_true.1 List.all_takeWhile d hd
  · exact lexical_scanSymbol h

theorem lexical_of_mem_tokens (h : some t ∈ tokens cs) : t.Lexical := by
  obtain ⟨k, hk⟩ : ∃ k, cs.length ≤ k := ⟨_, Nat.le_refl _⟩
  induction k generalizing cs with
  | zero =>
    obtain rfl := List.length_eq_zero_iff.1 (Nat.le_zero.1 hk)
    simp at h
  | succ k ih =>
    cases cs with
    | nil => simp at h
    | cons c cs =>
      have hrest := length_scan_rest c cs
      rw [List.length_cons] at hk
      rw [tokens_cons, List.mem_append] at h
      rcases h with h | h
      · cases hpiece : (scan c cs).piece with
        | blank => simp [hpiece, Piece.tokens] at h
        | error => simp [hpiece, Piece.tokens] at h
        | token u =>
          simp only [hpiece, Piece.tokens, List.mem_singleton, Option.some.injEq] at h
          exact h ▸ lexical_scan hpiece
      · exact ih h (by omega)

end Lexer

end GridSweep
