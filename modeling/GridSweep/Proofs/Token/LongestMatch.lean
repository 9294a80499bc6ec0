import GridSweep.Proofs.Token.Lexing
import Mathlib.Data.Nat.Find

/-!
# The longest match

`IsWord w piece` says which texts are words of the language, kind by kind, and what each stands for.
A text is read by cutting off the longest word at its front, a keyword where an identifier is
spelled the same (`Front`); it has the tokens `ts` if this goes on to its end (`Lexes`).

`scan` finds that word (`Front.scan_eq`), so lexing without errors is this reading
(`tokens_eq_iff_lexes`).
-/

namespace GridSweep.Lexer

variable {c d : Char} {cs w r whole fraction : List Char} {piece : Piece} {t : Token} {n : Int}

/-- Decimal digits, at least one. -/
def IsDigits (w : List Char) : Prop := w ≠ [] ∧ ∀ c ∈ w, isDigit c = true

/-- `e` or `E`, a sign or none, and digits. -/
inductive IsExponent : List Char → Int → Prop where
  | plain {c : Char} {ds : List Char} : c = 'e' ∨ c = 'E' → IsDigits ds →
    IsExponent (c :: ds) (digitsValue ds)
  | plus {c : Char} {ds : List Char} : c = 'e' ∨ c = 'E' → IsDigits ds →
    IsExponent (c :: '+' :: ds) (digitsValue ds)
  | minus {c : Char} {ds : List Char} : c = 'e' ∨ c = 'E' → IsDigits ds →
    IsExponent (c :: '-' :: ds) (-digitsValue ds)

/-- Operators and punctuation. -/
def isSymbol : Token → Bool
  | .operator _ | .equals | .lparen | .rparen | .comma | .colon => true
  | .keyword _ | .float _ | .int _ | .ident _ => false

/-- The words of the language, each with what it stands for. -/
inductive IsWord : List Char → Piece → Prop where
  | blanks {w : List Char} : w ≠ [] → (∀ c ∈ w, isBlank c = true) → IsWord w .blank
  | comment {w : List Char} : (∀ c ∈ w, c ≠ '\n') → IsWord ('/' :: '/' :: w) .blank
  | keyword (k : Keyword) : IsWord k.text.toList (.token (.keyword k))
  | pointFloat {whole fraction : List Char} : IsDigits whole →
    (∀ c ∈ fraction, isDigit c = true) →
    IsWord (whole ++ '.' :: fraction) (floatToken whole fraction 0)
  | pointExponentFloat {whole fraction w : List Char} {n : Int} : IsDigits whole →
    (∀ c ∈ fraction, isDigit c = true) → IsExponent w n →
    IsWord (whole ++ '.' :: (fraction ++ w)) (floatToken whole fraction n)
  | exponentFloat {whole w : List Char} {n : Int} : IsDigits whole → IsExponent w n →
    IsWord (whole ++ w) (floatToken whole [] n)
  | int {w : List Char} : IsDigits w → IsWord w (intToken w)
  | identifier {c : Char} {w : List Char} : isWordStart c = true →
    (∀ d ∈ w, isWordPart d = true) →
    IsWord (c :: w) (.token (.ident (String.ofList (c :: w))))
  | symbol {t : Token} : isSymbol t = true → IsWord t.text.toList (.token t)

/-- The longest word at the front of a text. -/
structure Front (cs w r : List Char) (piece : Piece) : Prop where
  split : cs = w ++ r
  word : IsWord w piece
  longest : ∀ w' r' piece', cs = w' ++ r' → IsWord w' piece' → w'.length ≤ w.length
  /-- What is spelled like a keyword is that keyword. -/
  keyword : ∀ k : Keyword, w = k.text.toList → piece = .token (.keyword k)

/-- The tokens of a text that has no errors. -/
inductive Lexes : List Char → List Token → Prop where
  | nil : Lexes [] []
  | skip {cs w r : List Char} {ts : List Token} : Front cs w r .blank → Lexes r ts → Lexes cs ts
  | token {cs w r : List Char} {t : Token} {ts : List Token} : Front cs w r (.token t) →
    Lexes r ts → Lexes cs (t :: ts)

/-! ## Exponents -/

theorem exponentDigits_eq {front ds : List Char} {negative : Bool} (hds : IsDigits ds)
    (hr : ∀ c ∈ r.head?, isDigit c = false) :
    exponentDigits front negative (ds ++ r) =
      some ⟨front ++ ds, if negative then -(digitsValue ds : Int) else digitsValue ds, r⟩ := by
  obtain ⟨htake, hdrop⟩ := takeWhile_append_of_stop hds.2 hr
  have hne : ds.isEmpty = false := by simp [hds.1]
  simp only [exponentDigits, htake, hdrop, hne, Bool.false_eq_true, if_false]

theorem isDigits_of_exponentDigits {front : List Char} {negative : Bool} {e : ExponentScan}
    (h : exponentDigits front negative cs = some e) :
    ∃ ds, IsDigits ds ∧ e.covered = front ++ ds ∧
      e.value = if negative then -(digitsValue ds : Int) else digitsValue ds := by
  simp only [exponentDigits] at h
  split at h
  · cases h
  next hne =>
  cases h
  refine ⟨_, ⟨by simpa using hne, ?_⟩, rfl, rfl⟩
  exact fun c hc => List.all_eq_true.1 List.all_takeWhile c hc

theorem exponent?_eq (h : IsExponent w n) (hr : ∀ c ∈ r.head?, isDigit c = false) :
    exponent? (w ++ r) = some ⟨w, n, r⟩ := by
  have hmark {c : Char} (hc : c = 'e' ∨ c = 'E') : (c == 'e' || c == 'E') = true := by
    rcases hc with rfl | rfl <;> rfl
  cases h with
  | @plain c ds hc hds =>
    -- a digit is not a sign
    obtain ⟨d, ds, rfl⟩ := List.exists_cons_of_ne_nil hds.1
    have hd := hds.2 d List.mem_cons_self
    unfold exponent?
    simp only [List.cons_append, hmark hc, if_true]
    split
    · next heq =>
      cases heq
      exact absurd hd (by decide)
    · next heq =>
      cases heq
      exact absurd hd (by decide)
    · exact exponentDigits_eq hds hr
  | @plus c ds hc hds =>
    simp only [exponent?, List.cons_append, hmark hc, if_true]
    exact exponentDigits_eq hds hr
  | @minus c ds hc hds =>
    simp only [exponent?, List.cons_append, hmark hc, if_true]
    exact exponentDigits_eq hds hr

theorem isExponent_of_exponent? {e : ExponentScan} (h : exponent? cs = some e) :
    IsExponent e.covered e.value := by
  unfold exponent? at h
  split at h
  · split at h
    · next hmark =>
      simp only [Bool.or_eq_true, beq_iff_eq] at hmark
      split at h <;> obtain ⟨ds, hds, hcovered, hvalue⟩ := isDigits_of_exponentDigits h <;>
        rw [hcovered, hvalue]
      · exact .plus hmark hds
      · exact .minus hmark hds
      · exact .plain hmark hds
    · cases h
  · cases h

/-- An exponent starts with neither a digit nor a point. -/
theorem IsExponent.head (h : IsExponent w n) :
    ∃ c v, w = c :: v ∧ isDigit c = false ∧ c ≠ '.' := by
  cases h with
  | plain hc _ | plus hc _ | minus hc _ =>
    refine ⟨_, _, rfl, ?_⟩
    rcases hc with rfl | rfl <;> decide

theorem IsDigits.snoc (hw : IsDigits w) (hd : isDigit d = true) : IsDigits (w ++ [d]) :=
  ⟨by simp, List.forall_mem_append.2 ⟨hw.2, List.forall_mem_singleton.2 hd⟩⟩

theorem IsExponent.snoc (h : IsExponent w n) (hd : isDigit d = true) :
    ∃ m, IsExponent (w ++ [d]) m := by
  cases h with
  | plain hc hds => exact ⟨_, .plain hc (hds.snoc hd)⟩
  | plus hc hds => exact ⟨_, .plus hc (hds.snoc hd)⟩
  | minus hc hds => exact ⟨_, .minus hc (hds.snoc hd)⟩

/-! ## Pieces at the front of a text -/

theorem scan_blanks (hc : isBlank c = true) (hw : ∀ d ∈ w, isBlank d = true)
    (hr : ∀ d ∈ r.head?, isBlank d = false) : scan c (w ++ r) = ⟨.blank, c :: w, r⟩ := by
  obtain ⟨htake, hdrop⟩ := takeWhile_append_of_stop hw hr
  simp only [scan, hc, htake, hdrop, if_true]

theorem scan_comment (hw : ∀ d ∈ w, d ≠ '\n') (hr : ∀ d ∈ r.head?, d = '\n') :
    scan '/' ('/' :: (w ++ r)) = ⟨.blank, '/' :: '/' :: w, r⟩ := by
  have hline : ∀ d ∈ w, (d != '\n') = true := by simpa using hw
  obtain ⟨htake, hdrop⟩ :=
    takeWhile_append_of_stop (p := (· != '\n')) (r := r) hline (by simpa using hr)
  have hslash : ('/' != '\n') = true := rfl
  have hblank : isBlank '/' = false := rfl
  simp only [scan, hblank, isCommentStart, List.takeWhile_cons, List.dropWhile_cons, hslash, htake,
    hdrop, Bool.false_eq_true, if_false, if_true]

theorem scan_pair (h : pair? c d = some t) : scan c (d :: cs) = ⟨.token t, [c, d], cs⟩ := by
  unfold pair? at h
  split at h <;> cases h <;> rfl

theorem symbol_of_single? (h : single? c = some t) : t.text.toList = [c] ∧ isSymbol t = true := by
  unfold single? at h
  split at h <;> cases h <;> exact ⟨rfl, rfl⟩

theorem symbol_of_pair? (h : pair? c d = some t) : t.text.toList = [c, d] ∧ isSymbol t = true := by
  unfold pair? at h
  split at h <;> cases h <;> exact ⟨rfl, rfl⟩

/-- A symbol is found by its one or two characters. -/
theorem scans_of_isSymbol (h : isSymbol t = true) :
    (∃ c, t.text.toList = [c] ∧ single? c = some t) ∨
      ∃ c d, t.text.toList = [c, d] ∧ pair? c d = some t := by
  cases t with
  | operator op =>
    cases op
    all_goals first
      | exact .inl ⟨_, rfl, rfl⟩
      | exact .inr ⟨_, _, rfl, rfl⟩
  | equals | lparen | rparen | comma | colon => exact .inl ⟨_, rfl, rfl⟩
  | keyword | float | int | ident => cases h

/-- A keyword is spelled like a word. -/
theorem word_of_keyword (k : Keyword) : ∃ c cs, k.text.toList = c :: cs ∧ isWordStart c = true ∧
    ∀ d ∈ cs, isWordPart d = true := by
  cases k <;> exact ⟨_, _, rfl, by decide, List.all_eq_true.1 (by decide)⟩

namespace Front

variable {piece' : Piece} {u v : List Char}

theorem not_longer (h : Front cs w r piece) (hr : r = u ++ v) (hu : u ≠ []) :
    ¬ IsWord (w ++ u) piece' := by
  intro hword
  have hle := h.longest (w ++ u) v piece' (by rw [h.split, hr, List.append_assoc]) hword
  have hpos := List.length_pos_iff.2 hu
  rw [List.length_append] at hle
  omega

theorem not_longer_head (h : Front cs w r piece) (hd : d ∈ r.head?) :
    ¬ IsWord (w ++ [d]) piece' := by
  obtain ⟨v, rfl⟩ := List.head?_eq_some_iff.1 hd
  exact h.not_longer rfl (by simp)

theorem exponent?_eq_none (h : Front cs w r piece)
    (hword : ∀ v n, IsExponent v n → ∃ piece', IsWord (w ++ v) piece') : exponent? r = none := by
  rw [Option.eq_none_iff_forall_ne_some]
  intro e he
  have hexp := isExponent_of_exponent? he
  obtain ⟨piece', hlong⟩ := hword _ _ hexp
  obtain ⟨d, v, hcovered, -⟩ := hexp.head
  exact h.not_longer (exponent?_append he).symm (by simp [hcovered]) hlong

theorem scan_symbol (h : Front (c :: cs) t.text.toList r (.token t)) (ht : isSymbol t = true) :
    scan c cs = ⟨.token t, t.text.toList, r⟩ := by
  have hsplit := h.split
  rcases scans_of_isSymbol ht with ⟨c', htext, hsingle⟩ | ⟨c', d', htext, hpair⟩ <;>
    rw [htext] at hsplit ⊢
  · obtain ⟨rfl, rfl⟩ := List.cons.inj hsplit
    refine scan_single hsingle ?_ fun d hd => ?_
    · -- two slashes would be a comment
      unfold isCommentStart
      split
      · refine absurd (IsWord.comment (w := []) (by simp)) ?_
        simpa [htext] using h.not_longer_head rfl
      · rfl
    · rw [Option.eq_none_iff_forall_ne_some]
      intro t' hpair
      obtain ⟨htext', ht'⟩ := symbol_of_pair? hpair
      have hword := IsWord.symbol ht'
      rw [htext'] at hword
      exact (htext ▸ h).not_longer_head hd hword
  · obtain ⟨rfl, rfl⟩ := List.cons.inj hsplit
    exact scan_pair hpair

/-- Nothing that goes on with a word stands behind it. -/
theorem not_isWordPart (h : Front cs (c :: w) r piece) (hc : isWordStart c = true)
    (hw : ∀ d ∈ w, isWordPart d = true) : ∀ d ∈ r.head?, isWordPart d = false := by
  intro d hd
  rw [Bool.eq_false_iff]
  intro hpart
  refine h.not_longer_head hd (.identifier hc fun e he => ?_)
  rcases List.mem_append.1 he with he | he
  · exact hw e he
  · exact List.mem_singleton.1 he ▸ hpart

theorem split_cons {e : Char} (h : Front (c :: cs) (e :: w) r piece) : c = e ∧ cs = w ++ r := by
  simpa using h.split

theorem scan_number (h : Front (c :: cs) (whole ++ v) r piece) (hwhole : IsDigits whole)
    (hv : ∀ d ∈ (v ++ r).head?, isDigit d = false) : scan c cs = scanNumber whole (v ++ r) := by
  obtain ⟨e, ds, rfl⟩ := List.exists_cons_of_ne_nil hwhole.1
  rw [List.cons_append] at h
  obtain ⟨rfl, rfl⟩ := h.split_cons
  rw [List.append_assoc]
  exact scan_digits (hwhole.2 c List.mem_cons_self)
    (fun d hd => hwhole.2 d (List.mem_cons_of_mem _ hd)) hv

theorem not_isDigit (h : Front cs w r piece)
    (hword : ∀ d, isDigit d = true → ∃ piece', IsWord (w ++ [d]) piece') :
    ∀ d ∈ r.head?, isDigit d = false := by
  intro d hd
  rw [Bool.eq_false_iff]
  intro hdigit
  obtain ⟨piece', hlong⟩ := hword d hdigit
  exact h.not_longer_head hd hlong

theorem scan_int (h : Front (c :: cs) w r (intToken w)) (hw : IsDigits w) :
    scan c cs = ⟨intToken w, w, r⟩ := by
  have hdigit := h.not_isDigit fun d hd => ⟨_, .int (hw.snoc hd)⟩
  have hnone := h.exponent?_eq_none fun v n hv => ⟨_, .exponentFloat hw hv⟩
  rw [scan_number (v := []) (by rwa [List.append_nil]) hw hdigit, List.nil_append,
    scanNumber.eq_def]
  split
  · -- a point would make it longer
    have hpoint : IsWord (w ++ ['.']) (floatToken w [] 0) := .pointFloat hw (by simp)
    exact absurd hpoint (h.not_longer_head rfl)
  · rw [hnone]

theorem scan_pointFloat (h : Front (c :: cs) (whole ++ '.' :: fraction) r
      (floatToken whole fraction 0)) (hw : IsDigits whole)
    (hf : ∀ d ∈ fraction, isDigit d = true) :
    scan c cs = ⟨floatToken whole fraction 0, whole ++ '.' :: fraction, r⟩ := by
  have hdigit := h.not_isDigit fun d hd => ⟨floatToken whole (fraction ++ [d]) 0, by
    simpa using IsWord.pointFloat hw
      (List.forall_mem_append.2 ⟨hf, List.forall_mem_singleton.2 hd⟩)⟩
  have hnone := h.exponent?_eq_none fun v n hv => ⟨floatToken whole fraction n, by
    simpa using IsWord.pointExponentFloat hw hf hv⟩
  obtain ⟨htake, hdrop⟩ := takeWhile_append_of_stop hf hdigit
  rw [h.scan_number hw (by simp; decide)]
  simp only [List.cons_append, scanNumber, scanFloat, htake, hdrop, hnone]

theorem scan_pointExponentFloat (h : Front (c :: cs) (whole ++ '.' :: (fraction ++ v)) r
      (floatToken whole fraction n)) (hw : IsDigits whole)
    (hf : ∀ d ∈ fraction, isDigit d = true) (hv : IsExponent v n) :
    scan c cs = ⟨floatToken whole fraction n, whole ++ '.' :: (fraction ++ v), r⟩ := by
  have hdigit := h.not_isDigit fun d hd => by
    obtain ⟨m, hm⟩ := hv.snoc hd
    exact ⟨floatToken whole fraction m, by simpa using IsWord.pointExponentFloat hw hf hm⟩
  have hsome := exponent?_eq hv hdigit
  obtain ⟨e, u, rfl, he, -⟩ := hv.head
  obtain ⟨htake, hdrop⟩ := takeWhile_append_of_stop (r := e :: u ++ r) hf (by simpa using he)
  rw [h.scan_number hw (by simp; decide)]
  simp only [List.cons_append, List.append_assoc] at htake hdrop hsome ⊢
  simp only [scanNumber, scanFloat, htake, hdrop, hsome]

theorem scan_exponentFloat (h : Front (c :: cs) (whole ++ v) r (floatToken whole [] n))
    (hw : IsDigits whole) (hv : IsExponent v n) :
    scan c cs = ⟨floatToken whole [] n, whole ++ v, r⟩ := by
  have hdigit := h.not_isDigit fun d hd => by
    obtain ⟨m, hm⟩ := hv.snoc hd
    exact ⟨floatToken whole [] m, by simpa using IsWord.exponentFloat hw hm⟩
  have hsome := exponent?_eq hv hdigit
  obtain ⟨e, u, rfl, he, hpoint⟩ := hv.head
  rw [h.scan_number hw (by simpa using he), scanNumber.eq_def]
  split
  · next heq =>
    cases heq
    exact absurd rfl hpoint
  · rw [hsome]

/-- The longest word at the front of a text is the piece that is cut off. -/
theorem scan_eq (h : Front (c :: cs) w r piece) : scan c cs = ⟨piece, w, r⟩ := by
  cases h.word with
  | blanks hne hw =>
    obtain ⟨e, w, rfl⟩ := List.exists_cons_of_ne_nil hne
    obtain ⟨rfl, rfl⟩ := h.split_cons
    refine scan_blanks (hw c List.mem_cons_self) (fun d hd => hw d (List.mem_cons_of_mem _ hd))
      fun d hd => ?_
    rw [Bool.eq_false_iff]
    exact fun hblank => h.not_longer_head hd (.blanks (by simp)
      (List.forall_mem_append.2 ⟨hw, List.forall_mem_singleton.2 hblank⟩))
  | @comment body hbody =>
    obtain ⟨rfl, rfl⟩ := h.split_cons
    refine scan_comment hbody fun d hd => ?_
    by_contra hne
    exact h.not_longer_head hd (.comment (w := body ++ [d])
      (List.forall_mem_append.2 ⟨hbody, List.forall_mem_singleton.2 hne⟩))
  | keyword k =>
    obtain ⟨e, v, hv, hstart, hparts⟩ := word_of_keyword k
    rw [hv] at h ⊢
    obtain ⟨rfl, rfl⟩ := h.split_cons
    rw [scan_word hstart hparts (h.not_isWordPart hstart hparts), ← hv, String.ofList_toList,
      Token.ofWord, Keyword.ofText?_text]
  | @identifier e w hc hw =>
    obtain ⟨rfl, rfl⟩ := h.split_cons
    have hkeyword : Keyword.ofText? (String.ofList (c :: w)) = none := by
      rw [Option.eq_none_iff_forall_ne_some]
      intro k hk
      have htext : k.text = String.ofList (c :: w) := by simpa using List.find?_some hk
      have := h.keyword k (by rw [htext, String.toList_ofList])
      cases this
    rw [scan_word hc hw (h.not_isWordPart hc hw), Token.ofWord, hkeyword]
  | symbol ht => exact h.scan_symbol ht
  | int hw => exact h.scan_int hw
  | pointFloat hw hf => exact h.scan_pointFloat hw hf
  | pointExponentFloat hw hf hv => exact h.scan_pointExponentFloat hw hf hv
  | exponentFloat hw hv => exact h.scan_exponentFloat hw hv

end Front

/-! ## Tokens of a text -/

theorem isWord_scanNumber (hw : IsDigits whole) :
    IsWord (scanNumber whole cs).covered (scanNumber whole cs).piece := by
  unfold scanNumber
  split
  · next fs =>
    have hf : ∀ c ∈ fs.takeWhile isDigit, isDigit c = true := fun c hc =>
      List.all_eq_true.1 List.all_takeWhile c hc
    unfold scanFloat
    split
    · next he => exact .pointExponentFloat hw hf (isExponent_of_exponent? he)
    · exact .pointFloat hw hf
  · split
    · next he => exact .exponentFloat hw (isExponent_of_exponent? he)
    · exact .int hw

theorem isWord_ofWord (hc : isWordStart c = true) (hw : ∀ d ∈ w, isWordPart d = true) :
    IsWord (c :: w) (.token (.ofWord (String.ofList (c :: w)))) := by
  unfold Token.ofWord
  split
  · next k hk =>
    have htext : k.text = String.ofList (c :: w) := by simpa using List.find?_some hk
    have hword := IsWord.keyword k
    rwa [htext, String.toList_ofList] at hword
  · exact .identifier hc hw

theorem isWord_scanSymbol (h : (scanSymbol c cs).piece ≠ .error) :
    IsWord (scanSymbol c cs).covered (scanSymbol c cs).piece := by
  have hsingle (h : singlePiece c ≠ .error) : IsWord [c] (singlePiece c) := by
    unfold singlePiece at h ⊢
    split at h
    · next t ht =>
      obtain ⟨htext, hsymbol⟩ := symbol_of_single? ht
      exact htext ▸ .symbol hsymbol
    · exact absurd rfl h
  unfold scanSymbol at h ⊢
  split at h
  · exact hsingle h
  · split at h
    · next t ht =>
      obtain ⟨htext, hsymbol⟩ := symbol_of_pair? ht
      exact htext ▸ .symbol hsymbol
    · exact hsingle h

/-- What is cut off a text is a word, unless it is an error. -/
theorem isWord_scan (h : (scan c cs).piece ≠ .error) :
    IsWord (scan c cs).covered (scan c cs).piece := by
  unfold scan at h ⊢
  have hall (p : Char → Bool) : ∀ d ∈ cs.takeWhile p, p d = true := fun d hd =>
    List.all_eq_true.1 List.all_takeWhile d hd
  split
  · next hblank => exact .blanks (by simp) (List.forall_mem_cons.2 ⟨hblank, hall isBlank⟩)
  next hblank =>
  split
  · next hcomment =>
    unfold isCommentStart at hcomment
    split at hcomment
    · refine .comment fun d hd => ?_
      simpa using hall (· != '\n') d (List.mem_cons_of_mem _ hd)
    · cases hcomment
  next hcomment =>
  split
  · next hdigit => exact isWord_scanNumber ⟨by simp, List.forall_mem_cons.2 ⟨hdigit, hall isDigit⟩⟩
  next hdigit =>
  split
  · next hstart => exact isWord_ofWord hstart (hall isWordPart)
  next hstart =>
  rw [if_neg hblank, if_neg hcomment, if_neg hdigit, if_neg hstart] at h
  exact isWord_scanSymbol h

/-- A text with a word at its front has a longest one. -/
theorem exists_front (hcs : cs = w ++ r) (hw : IsWord w piece) :
    ∃ w' r' piece', Front cs w' r' piece' := by
  classical
  -- the lengths of words at the front are bounded by that of the text
  let P (n : ℕ) : Prop := ∃ w r piece, cs = w ++ r ∧ IsWord w piece ∧ w.length = n
  have hbound : ∀ n, P n → n ≤ cs.length := by
    rintro n ⟨w, r, piece, rfl, -, rfl⟩
    simp
  have hgreatest : P (Nat.findGreatest P cs.length) :=
    Nat.findGreatest_spec (hbound _ ⟨w, r, piece, hcs, hw, rfl⟩) ⟨w, r, piece, hcs, hw, rfl⟩
  obtain ⟨w', r', piece', hcs', hw', hlength⟩ := hgreatest
  have hlongest : ∀ v s q, cs = v ++ s → IsWord v q → v.length ≤ w'.length := fun v s q hsplit hv =>
    have hv' : P v.length := ⟨v, s, q, hsplit, hv, rfl⟩
    hlength ▸ Nat.le_findGreatest (hbound _ hv') hv'
  by_cases hkeyword : ∃ k : Keyword, w' = k.text.toList
  · obtain ⟨k, rfl⟩ := hkeyword
    refine ⟨_, r', _, hcs', .keyword k, hlongest, fun k' hk' => ?_⟩
    have : Keyword.ofText? k.text = Keyword.ofText? k'.text := by rw [String.toList_injective hk']
    simp only [Keyword.ofText?_text, Option.some.injEq] at this
    rw [this]
  · exact ⟨w', r', piece', hcs', hw', hlongest, fun k hk => absurd ⟨k, hk⟩ hkeyword⟩

theorem front_scan (h : (scan c cs).piece ≠ .error) :
    Front (c :: cs) (scan c cs).covered (scan c cs).rest (scan c cs).piece := by
  obtain ⟨w, r, piece, hfront⟩ := exists_front (scan_append c cs).symm (isWord_scan h)
  rw [hfront.scan_eq]
  exact hfront

theorem IsWord.ne_nil (h : IsWord w piece) : w ≠ [] := by
  cases h with
  | blanks hne _ => exact hne
  | keyword k => cases k <;> decide
  | exponentFloat hw _ => simp [hw.1]
  | int hw => exact hw.1
  | symbol ht => rcases scans_of_isSymbol ht with ⟨_, htext, -⟩ | ⟨_, _, htext, -⟩ <;> simp [htext]
  | comment | pointFloat | pointExponentFloat | identifier => simp

theorem Front.tokens_eq (h : Front cs w r piece) : tokens cs = piece.tokens ++ tokens r := by
  cases cs with
  | nil => exact absurd (List.append_eq_nil_iff.1 h.split.symm).1 h.word.ne_nil
  | cons c cs => rw [tokens_cons, h.scan_eq]

theorem Lexes.tokens_eq {ts : List Token} (h : Lexes cs ts) : tokens cs = ts.map some := by
  induction h with
  | nil => rfl
  | skip hfront _ ih =>
    rw [hfront.tokens_eq, ih]
    rfl
  | token hfront _ ih =>
    rw [hfront.tokens_eq, ih]
    rfl

/-- A word is cut off at each step, so the induction is on the length of the text. -/
theorem lexes_of_tokens {ts : List Token} (h : tokens cs = ts.map some) : Lexes cs ts := by
  obtain ⟨k, hk⟩ : ∃ k, cs.length < k := ⟨_, Nat.lt_succ_self _⟩
  induction k generalizing cs ts with
  | zero => omega
  | succ k ih =>
    cases cs with
    | nil =>
      obtain rfl : ts = [] := by simpa using h.symm
      exact .nil
    | cons c cs =>
      have hrest := length_scan_rest c cs
      rw [List.length_cons] at hk
      rw [tokens_cons] at h
      have herror : (scan c cs).piece ≠ .error := by
        intro herror
        rw [herror] at h
        cases ts <;> simp [Piece.tokens] at h
      have hfront := front_scan herror
      cases hpiece : (scan c cs).piece with
      | blank =>
        rw [hpiece] at h hfront
        exact .skip hfront (ih h (by omega))
      | token t =>
        rw [hpiece] at h hfront
        cases ts with
        | nil => simp [Piece.tokens] at h
        | cons u ts =>
          simp only [Piece.tokens, List.singleton_append, List.map_cons, List.cons.injEq,
            Option.some.injEq] at h
          exact h.1 ▸ .token hfront (ih h.2 (by omega))
      | error => exact absurd hpiece herror

/-- Lexing without errors is cutting off longest words. -/
theorem tokens_eq_iff_lexes {ts : List Token} : tokens cs = ts.map some ↔ Lexes cs ts :=
  ⟨lexes_of_tokens, Lexes.tokens_eq⟩

end GridSweep.Lexer
