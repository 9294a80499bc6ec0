import GridSweep.Proofs.Token.Numerals

/-!
# The layout of a source

`Spaced` lays tokens out as a text, with blanks and comments between them, and lexing such a text
gives the tokens back: a blank ends every token, however it could go on. `Covers` says where the
lexemes of a text lie, whatever the text is: side by side from its start to its end, with blanks and
comments alone between them.
-/

namespace GridSweep.Lexer

variable {c d : Char} {cs w r : List Char} {t : Token} {ts : List Token} {start : Nat}
  {ls : List Lexeme}

/-! ## Tokens with blanks and comments between them -/

/-- Blanks and comments, each comment with the end of its line. -/
inductive IsGap : List Char → Prop where
  | nil : IsGap []
  | blank {c : Char} {cs : List Char} : isBlank c = true → IsGap cs → IsGap (c :: cs)
  | comment {body cs : List Char} : (∀ d ∈ body, d ≠ '\n') → IsGap cs →
    IsGap ('/' :: '/' :: (body ++ '\n' :: cs))

/-- A text that begins with a blank, or the end of the source. -/
def AtBlank (r : List Char) : Prop := ∀ c ∈ r.head?, isBlank c = true

/-- The texts of tokens, with a gap that begins with a blank between any two of them. -/
inductive Spaced : List Token → List Char → Prop where
  | nil : Spaced [] []
  | single (t : Token) : Spaced [t] t.text.toList
  | cons {t u : Token} {ts : List Token} {c : Char} {gap cs : List Char} : isBlank c = true →
    IsGap gap → Spaced (u :: ts) cs →
    Spaced (t :: u :: ts) (t.text.toList ++ c :: (gap ++ cs))

theorem kind_of_isBlank (h : isBlank c = true) :
    isWordPart c = false ∧ c ≠ '.' ∧ c ≠ '=' := by
  simp only [isBlank, Bool.or_eq_true, beq_iff_eq] at h
  rcases h with ((rfl | rfl) | rfl) | rfl <;> decide

theorem AtBlank.stops (h : AtBlank r) : Stops r := fun c hc => kind_of_isBlank (h c hc)

/-- A blank is no second character of a token. -/
theorem pair?_of_isBlank (h : isBlank d = true) : pair? c d = none := by
  unfold pair?
  split <;> first | rfl | exact absurd h (by decide)

theorem isCommentStart_of_atBlank (h : AtBlank r) : isCommentStart c r = false := by
  unfold isCommentStart
  split
  · exact absurd (h '/' rfl) (by decide)
  · rfl

theorem tokens_keyword (k : Keyword) (hr : ∀ d ∈ r.head?, isWordPart d = false) :
    tokens (k.text.toList ++ r) = some (.keyword k) :: tokens r := by
  obtain ⟨c, cs, htext, hstart, hparts⟩ := word_of_keyword k
  rw [htext, List.cons_append, tokens_cons, scan_word hstart hparts hr, ← htext,
    String.ofList_toList, Token.ofWord, Keyword.ofText?_text]
  rfl

theorem tokens_isSymbol (h : isSymbol t = true) (hr : AtBlank r) :
    tokens (t.text.toList ++ r) = some t :: tokens r := by
  rcases scans_of_isSymbol h with ⟨c, htext, hsingle⟩ | ⟨c, d, htext, hpair⟩
  · rw [htext, List.singleton_append]
    have hpair : ∀ d ∈ r.head?, pair? c d = none := fun d hd => pair?_of_isBlank (hr d hd)
    exact tokens_symbol hsingle (isCommentStart_of_atBlank hr) hpair
  · rw [htext, List.cons_append, List.singleton_append, tokens_cons, scan_pair hpair]
    rfl

/-- A token is read back in front of a blank. -/
theorem tokens_text (ht : t.Lexical) (hfloat : ∀ v, t ≠ .float v) (hr : AtBlank r) :
    tokens (t.text.toList ++ r) = some t :: tokens r := by
  cases t with
  | keyword k => exact tokens_keyword k hr.stops.word
  | float v => exact absurd rfl (hfloat v)
  | int n => exact tokens_natural ht hr.stops
  | ident name => exact tokens_identifier ht hr.stops.word
  | operator op => exact tokens_isSymbol rfl hr
  | equals | lparen | rparen | comma | colon => exact tokens_isSymbol rfl hr

theorem tokens_gap {gap : List Char} (h : IsGap gap) : tokens (gap ++ r) = tokens r := by
  induction h with
  | nil => rfl
  | blank hc _ ih => rw [List.cons_append, tokens_cons_of_isBlank hc, tokens_dropWhile_isBlank, ih]
  | @comment body cs hbody _ ih =>
    have htext : '/' :: '/' :: (body ++ '\n' :: cs) ++ r =
        '/' :: '/' :: (body ++ '\n' :: (cs ++ r)) := by simp
    rw [htext, tokens_cons, scan_comment hbody (by simp)]
    change tokens ('\n' :: (cs ++ r)) = _
    rw [tokens_cons_of_isBlank rfl, tokens_dropWhile_isBlank, ih]

/-- The tokens of a spaced list are that list. -/
theorem Spaced.tokens_eq (h : Spaced ts cs) (hts : ∀ t ∈ ts, t.Lexical ∧ ∀ v, t ≠ .float v) :
    tokens cs = ts.map some := by
  induction h with
  | nil => rfl
  | single t =>
    obtain ⟨ht, hfloat⟩ := hts t List.mem_cons_self
    have hread := tokens_text ht hfloat (r := []) (by simp [AtBlank])
    rwa [List.append_nil] at hread
  | @cons t u ts c gap cs hc hgap _ ih =>
    obtain ⟨⟨ht, hfloat⟩, hrest⟩ := List.forall_mem_cons.1 hts
    have hblank : AtBlank (c :: (gap ++ cs)) := by simpa [AtBlank] using hc
    rw [tokens_text ht hfloat hblank, tokens_cons_of_isBlank hc, tokens_dropWhile_isBlank,
      tokens_gap hgap, ih hrest]
    rfl

/-! ## Spans -/

/-- The lexemes `ls` of a text that starts at byte `start`. What lies outside of them is blank or a
comment, which goes to the end of its line or of the text. -/
inductive Covers : Nat → List Char → List Lexeme → Prop where
  | nil {start : Nat} : Covers start [] []
  | blanks {start : Nat} {w cs : List Char} {ls : List Lexeme} : (∀ c ∈ w, isBlank c = true) →
    Covers (start + width w) cs ls → Covers start (w ++ cs) ls
  | comment {start : Nat} {body cs : List Char} {ls : List Lexeme} : (∀ d ∈ body, d ≠ '\n') →
    (∀ d ∈ cs.head?, d = '\n') → Covers (start + width ('/' :: '/' :: body)) cs ls →
    Covers start ('/' :: '/' :: (body ++ cs)) ls
  | lexeme {token : Option Token} {start : Nat} {w cs : List Char} {ls : List Lexeme} : w ≠ [] →
    (∀ t ∈ token, IsWord w (.token t)) → Covers (start + width w) cs ls →
    Covers start (w ++ cs) (⟨token, start, start + width w⟩ :: ls)

theorem width_eq_sum (w : List Char) : width w = (w.map Char.utf8Size).sum := by
  rw [List.sum_eq_foldl, List.foldl_map]
  rfl

theorem width_pos (h : w ≠ []) : 0 < width w := by
  obtain ⟨c, w, rfl⟩ := List.exists_cons_of_ne_nil h
  have hc := c.utf8Size_pos
  rw [width_eq_sum, List.map_cons, List.sum_cons]
  omega

theorem Covers.start_le (h : Covers start cs ls) : ∀ l ∈ ls, start ≤ l.start := by
  induction h with
  | nil => simp
  | blanks _ _ ih => exact fun l hl => Nat.le_trans (Nat.le_add_right ..) (ih l hl)
  | comment _ _ _ ih => exact fun l hl => Nat.le_trans (Nat.le_add_right ..) (ih l hl)
  | lexeme _ _ _ ih =>
    refine List.forall_mem_cons.2 ⟨Nat.le_refl _, fun l hl => ?_⟩
    exact Nat.le_trans (Nat.le_add_right ..) (ih l hl)

theorem Covers.start_lt_stop (h : Covers start cs ls) : ∀ l ∈ ls, l.start < l.stop := by
  induction h with
  | nil => simp
  | blanks _ _ ih => exact ih
  | comment _ _ _ ih => exact ih
  | lexeme hne _ _ ih =>
    exact List.forall_mem_cons.2 ⟨Nat.lt_add_of_pos_right (width_pos hne), ih⟩

theorem Covers.pairwise (h : Covers start cs ls) : ls.Pairwise fun l m => l.stop ≤ m.start := by
  induction h with
  | nil => exact .nil
  | blanks _ _ ih => exact ih
  | comment _ _ _ ih => exact ih
  | lexeme _ _ hrest ih => exact .cons hrest.start_le ih

theorem isWord_blank (h : IsWord w .blank) : (∀ d ∈ w, isBlank d = true) ∨
    ∃ body, w = '/' :: '/' :: body ∧ ∀ d ∈ body, d ≠ '\n' := by
  generalize hpiece : Piece.blank = piece at h
  cases h with
  | blanks _ hw => exact .inl hw
  | comment hw => exact .inr ⟨_, rfl, hw⟩
  | int hw =>
    simp only [intToken] at hpiece
    split at hpiece <;> cases hpiece
  | _ => cases hpiece

/-- What is skipped is blank or a comment up to the end of its line. -/
theorem Front.covers (h : Front cs w r .blank) (hrest : Covers (start + width w) r ls) :
    Covers start cs ls := by
  rw [h.split]
  rcases isWord_blank h.word with hw | ⟨body, rfl, hline⟩
  · exact .blanks hw hrest
  · refine .comment hline (fun d hd => ?_) hrest
    by_contra hne
    have hlonger : IsWord ('/' :: '/' :: body ++ [d]) .blank :=
      .comment (List.forall_mem_append.2 ⟨hline, List.forall_mem_singleton.2 hne⟩)
    exact h.not_longer_head hd hlonger

/-- Every piece is cut off the front of the text, so the induction is on the rounds. -/
theorem covers_lexFrom (fuel start : Nat) (h : cs.length ≤ fuel) :
    Covers start cs (lexFrom fuel start cs) := by
  induction fuel generalizing start cs with
  | zero =>
    obtain rfl := List.length_eq_zero_iff.1 (Nat.le_zero.1 h)
    exact .nil
  | succ fuel ih =>
    cases cs with
    | nil => exact .nil
    | cons c cs =>
      have hshort : (scan c cs).rest.length ≤ fuel :=
        Nat.le_trans (length_scan_rest c cs) (Nat.le_of_succ_le_succ h)
      have hrest := ih (start + width (scan c cs).covered) hshort
      rw [lexFrom]
      cases hpiece : (scan c cs).piece with
      | blank =>
        have hfront := front_scan (show (scan c cs).piece ≠ .error by simp [hpiece])
        rw [hpiece] at hfront
        exact hfront.covers hrest
      | token t =>
        have hword := isWord_scan (show (scan c cs).piece ≠ .error by simp [hpiece])
        rw [hpiece] at hword
        rw [← scan_append c cs]
        exact .lexeme (scan_ne_nil c cs) (by simpa using hword) hrest
      | error =>
        rw [← scan_append c cs]
        exact .lexeme (scan_ne_nil c cs) (by simp) hrest

/-! ## Sources -/

/-- Lexing gives spaced tokens back. Of any source it loses nothing: the lexemes are not empty,
each stops before the next one starts, and all text outside of them is blank or a comment. -/
theorem lex_spaced_and_covering :
    (∀ ts source, (∀ t ∈ ts, t.Lexical ∧ ∀ v, t ≠ .float v) → Spaced ts source.toList →
      (lex source).map (·.token) = ts.map some) ∧
    ∀ source, Covers 0 source.toList (lex source) ∧ (∀ l ∈ lex source, l.start < l.stop) ∧
      (lex source).Pairwise fun l m => l.stop ≤ m.start := by
  refine ⟨fun ts source hts hspaced => ?_, fun source => ?_⟩
  · rw [map_token_lex]
    exact hspaced.tokens_eq hts
  · have hcovers : Covers 0 source.toList (lex source) := covers_lexFrom _ 0 (Nat.le_refl _)
    exact ⟨hcovers, hcovers.start_lt_stop, hcovers.pairwise⟩

/-- Two slashes, a word that a number could go on with, and a keyword inside of a word. -/
theorem lex_spaced_slashes :
    let source := "/ / 9223372036854775807 e5\t// é\n//\n inputs = ="
    let ts := [.operator .slash, .operator .slash, .int 9223372036854775807, .ident "e5",
      .ident "inputs", .equals, .equals]
    (∀ t ∈ ts, t.Lexical ∧ ∀ v, t ≠ .float v) ∧ Spaced ts source.toList ∧
      (lex source).map (·.token) = ts.map some := by
  intro source ts
  have hnames : isIdentifier "e5" = true ∧ isIdentifier "inputs" = true := by decide
  have hts : ∀ t ∈ ts, t.Lexical ∧ ∀ v, t ≠ .float v := by simpa [ts, Token.Lexical] using hnames
  have hgap : IsGap ("// é\n//\n ".toList) := by
    refine .comment (show ∀ d ∈ [' ', 'é'], d ≠ '\n' by simp) ?_
    exact .comment (show ∀ d ∈ [], d ≠ '\n' by simp) (.blank rfl .nil)
  have hwords : Spaced [.ident "inputs", .equals, .equals] _ :=
    .cons (c := ' ') rfl .nil (.cons (c := ' ') rfl .nil (.single _))
  have hcomments : Spaced (.int 9223372036854775807 :: .ident "e5" :: _) _ :=
    .cons (c := ' ') rfl .nil (.cons (c := '\t') rfl hgap hwords)
  have hslashes : Spaced ts _ :=
    .cons (c := ' ') rfl .nil (.cons (c := ' ') rfl .nil hcomments)
  have hspaced : Spaced ts source.toList := by
    convert hslashes using 1
    decide +kernel
  exact ⟨hts, hspaced, lex_spaced_and_covering.1 ts source hts hspaced⟩

end GridSweep.Lexer
