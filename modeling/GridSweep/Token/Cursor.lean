import GridSweep.Token.Lexer

/-!
# Reading lexemes one by one

A cursor stands before the next lexeme of a source. `peek` looks at it without taking it. The
cursor's span is that of the lexeme looked at last, taken or not; at the end of the source it is
empty and stands at the last byte.
-/

namespace GridSweep

structure Cursor where
  rest : List Lexeme
  /-- The first lexeme of `rest` was already looked at. -/
  peeked : Bool
  span : Nat × Nat
  /-- Bytes of the source. -/
  size : Nat
deriving Repr

namespace Cursor

def ofSource (source : String) : Cursor := ⟨lex source, false, (0, 0), source.utf8ByteSize⟩

/-- The span of the next lexeme, or the empty one at the end. -/
def nextSpan (c : Cursor) : Nat × Nat :=
  match c.rest with
  | [] => (c.size, c.size)
  | l :: _ => (l.start, l.stop)

/-- Look at the next lexeme; `none` is the end. -/
def peek (c : Cursor) : Option Lexeme × Cursor :=
  (c.rest.head?, if c.peeked then c else { c with peeked := true, span := c.nextSpan })

/-- Take the next lexeme; `none` is the end. -/
def next (c : Cursor) : Option Lexeme × Cursor :=
  (c.rest.head?, { c with
    rest := c.rest.tail
    peeked := false
    span := if c.peeked then c.span else c.nextSpan })

/-- Whether the next lexeme is the given token. -/
def check (c : Cursor) (expected : Token) : Bool × Cursor :=
  let (l, c) := c.peek
  (l.bind (·.token) == some expected, c)

end Cursor

end GridSweep
