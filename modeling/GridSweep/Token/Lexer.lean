import GridSweep.Token

/-!
# Lexing

`scan` cuts the longest piece off the front of a text: blanks, a comment, a token, or a single
character that starts no token. `lex` repeats this to the end and keeps the tokens and the errors
with their byte spans; lexing goes on after an error.

Every piece is a nonempty front part of the text (`scan_append`, `scan_ne_nil`), so nothing is lost.
-/

namespace GridSweep

/-- A token, or an error where there is none, with the bytes it spans. -/
structure Lexeme where
  token : Option Token
  start : Nat
  stop : Nat
deriving DecidableEq, Repr

namespace Lexer

def isBlank (c : Char) : Bool := c == ' ' || c == '\t' || c == '\n' || c == '\r'

def isDigit (c : Char) : Bool := c.isDigit

def isWordStart (c : Char) : Bool := c.isAlpha || c == '_'

def isWordPart (c : Char) : Bool := c.isAlphanum || c == '_'

/-- The value of a run of decimal digits. -/
def digitsValue (ds : List Char) : Nat := ds.foldl (fun n c => 10 * n + (c.toNat - '0'.toNat)) 0

/-- One piece of a text. -/
inductive Piece where
  | blank
  | token (t : Token)
  | error
deriving DecidableEq, Repr

/-- A piece with the characters it covers and those that follow. -/
structure Scan where
  piece : Piece
  covered : List Char
  rest : List Char
deriving Repr

/-! ### Numbers -/

/-- A complete exponent at the front: `e` or `E`, an optional sign, at least one digit. -/
structure ExponentScan where
  covered : List Char
  value : Int
  rest : List Char

def exponentDigits (front : List Char) (negative : Bool) (cs : List Char) : Option ExponentScan :=
  let ds := cs.takeWhile isDigit
  if ds.isEmpty then none
  else
    let n : Int := digitsValue ds
    some ⟨front ++ ds, if negative then -n else n, cs.dropWhile isDigit⟩

def exponent? : List Char → Option ExponentScan
  | c :: cs =>
    if c == 'e' || c == 'E' then
      match cs with
      | '+' :: ds => exponentDigits [c, '+'] false ds
      | '-' :: ds => exponentDigits [c, '-'] true ds
      | ds => exponentDigits [c] false ds
    else none
  | [] => none

/-- A float from its digits in front of and behind the point. -/
def floatToken (whole fraction : List Char) (exponent : Int) : Piece :=
  let digits := digitsValue (whole ++ fraction)
  .token (.float (Binary64.ofDecimal digits (exponent - fraction.length)))

/-- Integers reach `2 ^ 63 - 1`; a larger one is an error as a whole. -/
def intToken (whole : List Char) : Piece :=
  let n := digitsValue whole
  if n < 1 <<< 63 then .token (.int n) else .error

/-- A float with integer digits `whole` and `fraction` behind the point. -/
def scanFloat (whole fraction cs : List Char) : Scan :=
  match exponent? cs with
  | some e => ⟨floatToken whole fraction e.value, whole ++ '.' :: (fraction ++ e.covered), e.rest⟩
  | none => ⟨floatToken whole fraction 0, whole ++ '.' :: fraction, cs⟩

/-- A number whose integer digits are `whole`. An incomplete exponent is not part of it. -/
def scanNumber (whole cs : List Char) : Scan :=
  match cs with
  | '.' :: fs => scanFloat whole (fs.takeWhile isDigit) (fs.dropWhile isDigit)
  | rest =>
    match exponent? rest with
    | some e => ⟨floatToken whole [] e.value, whole ++ e.covered, e.rest⟩
    | none => ⟨intToken whole, whole, rest⟩

/-! ### Operators and punctuation -/

/-- The tokens of two characters. -/
def pair? : Char → Char → Option Token
  | '|', '|' => some (.operator .orOr)
  | '&', '&' => some (.operator .andAnd)
  | '=', '=' => some (.operator .eqEq)
  | '!', '=' => some (.operator .notEq)
  | '<', '=' => some (.operator .le)
  | '>', '=' => some (.operator .ge)
  | _, _ => none

/-- The tokens of one character. -/
def single? : Char → Option Token
  | '|' => some (.operator .pipe)
  | '^' => some (.operator .caret)
  | '&' => some (.operator .amp)
  | '<' => some (.operator .lt)
  | '>' => some (.operator .gt)
  | '+' => some (.operator .plus)
  | '-' => some (.operator .minus)
  | '*' => some (.operator .star)
  | '/' => some (.operator .slash)
  | '%' => some (.operator .percent)
  | '~' => some (.operator .tilde)
  | '!' => some (.operator .bang)
  | '=' => some .equals
  | '(' => some .lparen
  | ')' => some .rparen
  | ',' => some .comma
  | ':' => some .colon
  | _ => none

def singlePiece (c : Char) : Piece :=
  match single? c with
  | some t => .token t
  | none => .error

def scanSymbol (c : Char) : List Char → Scan
  | [] => ⟨singlePiece c, [c], []⟩
  | d :: cs =>
    match pair? c d with
    | some t => ⟨.token t, [c, d], cs⟩
    | none => ⟨singlePiece c, [c], d :: cs⟩

/-! ### Pieces -/

def isCommentStart : Char → List Char → Bool
  | '/', '/' :: _ => true
  | _, _ => false

/-- The longest piece at the front of `c :: cs`. -/
def scan (c : Char) (cs : List Char) : Scan :=
  if isBlank c then ⟨.blank, c :: cs.takeWhile isBlank, cs.dropWhile isBlank⟩
  else if isCommentStart c cs then
    ⟨.blank, c :: cs.takeWhile (· != '\n'), cs.dropWhile (· != '\n')⟩
  else if isDigit c then scanNumber (c :: cs.takeWhile isDigit) (cs.dropWhile isDigit)
  else if isWordStart c then
    let word := c :: cs.takeWhile isWordPart
    ⟨.token (.ofWord (String.ofList word)), word, cs.dropWhile isWordPart⟩
  else scanSymbol c cs

/-- Bytes of a run of characters in UTF-8. -/
def width (cs : List Char) : Nat := cs.foldl (fun n c => n + c.utf8Size) 0

/-- The lexemes of a text that starts at byte `start`. Each piece has a character at least, so as
many rounds as there are characters reach the end. -/
def lexFrom : Nat → Nat → List Char → List Lexeme
  | 0, _, _ => []
  | _, _, [] => []
  | fuel + 1, start, c :: cs =>
    let s := scan c cs
    let stop := start + width s.covered
    match s.piece with
    | .blank => lexFrom fuel stop s.rest
    | .token t => ⟨some t, start, stop⟩ :: lexFrom fuel stop s.rest
    | .error => ⟨none, start, stop⟩ :: lexFrom fuel stop s.rest

end Lexer

/-- All lexemes of a source text. -/
def lex (source : String) : List Lexeme := Lexer.lexFrom source.toList.length 0 source.toList

namespace Lexer

/-! ### Nothing is lost -/

theorem exponentDigits_append {front cs : List Char} {negative : Bool} {e : ExponentScan}
    (h : exponentDigits front negative cs = some e) : e.covered ++ e.rest = front ++ cs := by
  simp only [exponentDigits] at h
  split at h
  · simp at h
  · simp only [Option.some.injEq] at h
    subst h
    simp [List.takeWhile_append_dropWhile]

theorem exponent?_append {cs : List Char} {e : ExponentScan} (h : exponent? cs = some e) :
    e.covered ++ e.rest = cs := by
  unfold exponent? at h
  split at h
  · split at h
    · split at h <;> simpa using exponentDigits_append h
    · simp at h
  · simp at h

theorem scanFloat_append (whole fraction cs : List Char) :
    (scanFloat whole fraction cs).covered ++ (scanFloat whole fraction cs).rest =
      whole ++ '.' :: (fraction ++ cs) := by
  unfold scanFloat
  split
  · rename_i e he
    simp [exponent?_append he]
  · simp

theorem scanNumber_append (whole cs : List Char) :
    (scanNumber whole cs).covered ++ (scanNumber whole cs).rest = whole ++ cs := by
  unfold scanNumber
  split
  · rw [scanFloat_append, List.takeWhile_append_dropWhile]
  · split
    · rename_i e he
      simp [exponent?_append he]
    · simp

theorem scanSymbol_append (c : Char) (cs : List Char) :
    (scanSymbol c cs).covered ++ (scanSymbol c cs).rest = c :: cs := by
  unfold scanSymbol
  split
  · rfl
  · split <;> rfl

theorem scan_append (c : Char) (cs : List Char) :
    (scan c cs).covered ++ (scan c cs).rest = c :: cs := by
  unfold scan
  split
  · simp [List.takeWhile_append_dropWhile]
  split
  · simp [List.takeWhile_append_dropWhile]
  split
  · simp [scanNumber_append, List.takeWhile_append_dropWhile]
  split
  · simp [List.takeWhile_append_dropWhile]
  · exact scanSymbol_append c cs

theorem scan_ne_nil (c : Char) (cs : List Char) : (scan c cs).covered ≠ [] := by
  unfold scan
  split
  · simp
  split
  · simp
  split
  · unfold scanNumber scanFloat
    repeat' split
    all_goals simp
  split
  · simp
  · unfold scanSymbol
    split
    · simp
    · split <;> simp

end Lexer

end GridSweep
