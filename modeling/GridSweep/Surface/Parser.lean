import GridSweep.Error
import GridSweep.Level
import GridSweep.Program.Basic
import GridSweep.Token.Lexer

/-!
# Parsing

A recursive descent over lexemes with the current token and one token of lookahead:

    program  := ITERATE : int  KERNEL : ident  COUNT : int  input+ output
    input    := input ident ( int , ... )
    output   := output (ident = expr)* ref = expr
    ref      := ident ( index , ... )          index := -? int
    expr     := one chain per level, loosest first; the tightest level joins unary operands
    unary    := (+ | - | ~ | !)* operand
    operand  := int | float | ident | call | ref | ( expr )
    call     := (fabs | abs) ( expr , ... )

Every level stands in the tree, also with a single operand.

A parser leaves its state behind also when it fails. An unlexable character fails the step that runs
into it: the current token stays, and the character is consumed. The bad character of a source that
starts with one is reported when a program is parsed from it.
-/

namespace GridSweep.Surface

structure Parser where
  current : Option Token
  /-- The lexemes after the current token. -/
  rest : List Lexeme
  /-- A lexical error in place of the first token, not reported yet. -/
  pending : Option Error
deriving Repr

/-- A parsing step: a value or an error, and the state after it. -/
abbrev Parse := ExceptT Error (StateM Parser)

namespace Parser

/-- The state before the first token of a list of lexemes. -/
def ofLexemes : List Lexeme → Parser
  | [] => ⟨none, [], none⟩
  | ⟨some t, _, _⟩ :: ls => ⟨some t, ls, none⟩
  | ⟨none, start, _⟩ :: ls => ⟨none, ls, some (.lexical start)⟩

def ofSource (source : String) : Parser := ofLexemes (lex source)

/-- More than the lexemes that are not consumed yet. Every repetition and every nesting consumes
one, so this bounds them all. -/
def fuel (p : Parser) : Nat := p.rest.length + 2

end Parser

namespace Parse

def fail {α : Type} (fault : ParseFault) : Parse α := throw (.parse fault)

def current : Parse (Option Token) := return (← get).current

/-- Move to the next token. -/
def advance : Parse Unit := do
  let p ← get
  match p.rest with
  | [] => set { p with current := none }
  | ⟨some t, _, _⟩ :: ls => set { p with current := some t, rest := ls }
  | ⟨none, start, _⟩ :: ls =>
    set { p with rest := ls }
    throw (.lexical start)

/-- Consume a token that has to be there. -/
def expect (token : Token) : Parse Unit := do
  let t ← current
  if t = some token then advance else fail (.expected token t)

def expectIdent : Parse String := do
  match ← current with
  | some (.ident name) => advance; return name
  | got => fail (.expectedIdentifier got)

def expectInt : Parse Nat := do
  match ← current with
  | some (.int n) => advance; return n
  | got => fail (.expectedInteger got)

/-- An integer with an optional sign in front. -/
def expectIndex : Parse Int := do
  if (← current) = some (.operator .minus) then
    advance
    return -((← expectInt : Nat) : Int)
  else return ((← expectInt : Nat) : Int)

/-- The number of a header field; it has to fit 32 bits. -/
def expectCount (field : Keyword) : Parse Nat := do
  let n ← expectInt
  if n < 1 <<< 32 then return n else fail (.outOfRange field n)

/-- The further items of a comma-separated list, at most `fuel` of them. -/
def moreItems {α : Type} (item : Parse α) : Nat → Parse (List α)
  | 0 => return []
  | fuel + 1 => do
    if (← current) = some .comma then
      advance
      let a ← item
      return a :: (← moreItems item fuel)
    else return []

/-- A comma-separated list of one item or more. -/
def items {α : Type} (fuel : Nat) (item : Parse α) : Parse (List α) := do
  let a ← item
  return a :: (← moreItems item fuel)

/-- A parenthesised, comma-separated list. -/
def tuple {α : Type} (fuel : Nat) (item : Parse α) : Parse (List α) := do
  expect .lparen
  let as ← items fuel item
  expect .rparen
  return as

/-! ### Expressions -/

/-- The operators and operands after the first operand of a chain. -/
def moreOperands (level : Level) (operand : Parse Expr) : Nat → Parse (List (String × Expr))
  | 0 => return []
  | fuel + 1 => do
    match ← current with
    | some (.operator op) =>
      if op ∈ level.operators then
        advance
        let e ← operand
        return (op.text, e) :: (← moreOperands level operand fuel)
      else return []
    | _ => return []

/-- A chain of operands on one level. -/
def chain (fuel : Nat) (level : Level) (operand : Parse Expr) : Parse Expr := do
  let first ← operand
  let more ← moreOperands level operand fuel
  return .binary level.rule (first :: more.map (·.2)) (more.map (·.1))

/-- A chain on each of the given levels, the first one outermost. -/
def levels (fuel : Nat) (operand : Parse Expr) : List Level → Parse Expr
  | [] => operand
  | l :: ls => chain fuel l (levels fuel operand ls)

/-- Prefix operators, at most `fuel` of them. -/
def prefixOperators : Nat → Parse (List String)
  | 0 => return []
  | fuel + 1 => do
    match ← current with
    | some (.operator op) =>
      if op ∈ Operator.prefixes then
        advance
        return op.text :: (← prefixOperators fuel)
      else return []
    | _ => return []

def unary (fuel : Nat) (operand : Parse Expr) : Parse Expr := do
  let operators ← prefixOperators fuel
  return .unary operators (← operand)

def reference (fuel : Nat) (name : String) : Parse Ref := return ⟨name, ← tuple fuel expectIndex⟩

/-- An operand, given how a whole expression is parsed. -/
def operand (fuel : Nat) (expr : Parse Expr) : Parse Expr := do
  match ← current with
  | some (.int n) =>
    advance
    return .operand (.num (.ofNat n))
  | some (.float v) =>
    advance
    return .operand (.num v)
  | some (.ident name) =>
    advance
    if (← current) ≠ some .lparen then return .operand (.var name)
    else if name ∈ functionNames then return .operand (.call name (← tuple fuel expr))
    else return .operand (.ref (← reference fuel name))
  | some .lparen =>
    advance
    let inner ← expr
    expect .rparen
    return .operand (.paren inner)
  | none => fail .endOfInput
  | some t => fail (.unexpected t)

/-- An expression whose parentheses are nested at most `depth` deep. -/
def exprUpTo (fuel : Nat) : Nat → Parse Expr
  | 0 => fail .endOfInput
  | depth + 1 => levels fuel (unary fuel (operand fuel (exprUpTo fuel depth))) Level.all

/-- An expression in which the fuel bounds all repetitions and nestings. -/
def exprWith (fuel : Nat) : Parse Expr := exprUpTo fuel fuel

def expr : Parse Expr := do exprWith (← get).fuel

/-! ### Programs -/

def input (fuel : Nat) : Parse Input := do
  expect (.keyword .input)
  let name ← expectIdent
  return ⟨name, ← tuple fuel expectInt⟩

/-- The inputs after the first one, at most `n` of them. -/
def moreInputs (fuel : Nat) : Nat → Parse (List Input)
  | 0 => return []
  | n + 1 => do
    if (← current) = some (.keyword .input) then
      let i ← input fuel
      return i :: (← moreInputs fuel n)
    else return []

/-- Whether a binding starts here: an identifier with `=` after it. The output reference has a
parenthesis there. -/
def atBinding : Parse Bool := do
  let p ← get
  match p.current, p.rest with
  | some (.ident _), l :: _ => return l.token == some .equals
  | _, _ => return false

/-- The bindings of an output statement, at most `n` of them. -/
def bindings (fuel : Nat) : Nat → Parse (List (Binding Expr))
  | 0 => return []
  | n + 1 => do
    if ← atBinding then
      let name ← expectIdent
      expect .equals
      let value ← exprWith fuel
      return ⟨name, value⟩ :: (← bindings fuel n)
    else return []

def output (fuel : Nat) : Parse (Output Expr) := do
  expect (.keyword .output)
  let bs ← bindings fuel fuel
  let name ← expectIdent
  let target ← reference fuel name
  expect .equals
  let value ← exprWith fuel
  return ⟨target, bs, value⟩

/-- A field of the header: keyword, colon, value. -/
def headerField {α : Type} (field : Keyword) (value : Parse α) : Parse α := do
  expect (.keyword field)
  expect .colon
  value

/-- A whole program; nothing may follow it. -/
def program : Parse Program := do
  let p ← get
  if let some e := p.pending then
    set { p with pending := none }
    throw e
  let iterate ← headerField .iterate (expectCount .iterate)
  let kernelName ← headerField .kernel expectIdent
  let partitions ← headerField .count (expectCount .count)
  let fuel := p.fuel
  let first ← input fuel
  let inputs ← moreInputs fuel fuel
  let out ← output fuel
  match ← current with
  | some t => fail (.trailing t)
  | none => return ⟨iterate, kernelName, partitions, first :: inputs, out⟩

end Parse

/-- The program written in a source text. -/
def parseProgram (source : String) : Except Error Program :=
  (Parse.program.run (Parser.ofSource source)).1

/-- The expression at the front of a source text. -/
def parseExpr (source : String) : Except Error Expr :=
  (Parse.expr.run (Parser.ofSource source)).1

end GridSweep.Surface
