import GridSweep.Number.Notation

/-!
# Tokens

The words of a stencil program: keywords, literals, identifiers, the C operator set of stencil
expressions, and punctuation. `Token.text` is a token's spelling.
-/

namespace GridSweep

inductive Keyword where
  | iterate
  | kernel
  | count
  | input
  | output
deriving DecidableEq, Repr

namespace Keyword

def text : Keyword → String
  | iterate => "ITERATE"
  | kernel => "KERNEL"
  | count => "COUNT"
  | input => "input"
  | output => "output"

def all : List Keyword := [iterate, kernel, count, input, output]

/-- The keyword spelled by a whole word. -/
def ofText? (word : String) : Option Keyword := all.find? (·.text == word)

@[simp] theorem ofText?_text (k : Keyword) : ofText? k.text = some k := by
  cases k <;> decide

end Keyword

inductive Operator where
  | orOr
  | andAnd
  | pipe
  | caret
  | amp
  | eqEq
  | notEq
  | le
  | ge
  | lt
  | gt
  | plus
  | minus
  | star
  | slash
  | percent
  | tilde
  | bang
deriving DecidableEq, Repr

namespace Operator

def text : Operator → String
  | orOr => "||"
  | andAnd => "&&"
  | pipe => "|"
  | caret => "^"
  | amp => "&"
  | eqEq => "=="
  | notEq => "!="
  | le => "<="
  | ge => ">="
  | lt => "<"
  | gt => ">"
  | plus => "+"
  | minus => "-"
  | star => "*"
  | slash => "/"
  | percent => "%"
  | tilde => "~"
  | bang => "!"

end Operator

/-- A token. Integers are below `2 ^ 63`, and floats are not negative: signs are operators. -/
inductive Token where
  | keyword (k : Keyword)
  | float (value : Binary64)
  | int (value : Nat)
  | ident (name : String)
  | operator (op : Operator)
  | equals
  | lparen
  | rparen
  | comma
  | colon
deriving DecidableEq, Repr

namespace Token

def text : Token → String
  | keyword k => k.text
  | float v => v.text
  | int n => toString n
  | ident name => name
  | operator op => op.text
  | equals => "="
  | lparen => "("
  | rparen => ")"
  | comma => ","
  | colon => ":"

/-- A whole word is a keyword or an identifier. -/
def ofWord (word : String) : Token :=
  match Keyword.ofText? word with
  | some k => keyword k
  | none => ident word

end Token

end GridSweep
