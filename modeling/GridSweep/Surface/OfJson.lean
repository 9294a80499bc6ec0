import GridSweep.Json.Basic
import GridSweep.Program.Basic

/-!
# Surface programs from JSON

Front ends hand programs over as JSON. A record is an object with all its fields, further ones being
ignored, or a list of its fields in order. An expression is an object whose only key names the
alternative; the fields of an alternative stand in an object. Numbers are checked against their
width; nothing else is checked here.
-/

namespace GridSweep

mutual

/-- How deep a value is nested. -/
def Json.depth : Json → Nat
  | .array items => Json.depthList items + 1
  | .object fields => Json.depthFields fields + 1
  | _ => 1

def Json.depthList : List Json → Nat
  | [] => 0
  | v :: vs => max v.depth (Json.depthList vs)

def Json.depthFields : List (String × Json) → Nat
  | [] => 0
  | (_, v) :: fs => max v.depth (Json.depthFields fs)

end

/-- The fields of an object in the order of the names. -/
def Json.fields? (names : List String) (j : Json) : Option (List Json) :=
  match j with
  | .object _ => names.mapM j.field?
  | _ => none

/-- The fields of a record in the order of the names. -/
def Json.record? (names : List String) (j : Json) : Option (List Json) :=
  match j with
  | .array items => if items.length = names.length then some items else none
  | _ => j.fields? names

/-- The name and the content of an alternative. -/
def Json.variant? : Json → Option (String × Json)
  | .object [(name, content)] => some (name, content)
  | _ => none

def Json.list? {α : Type} (item : Json → Option α) (j : Json) : Option (List α) := do
  (← j.array?).mapM item

namespace Surface

def refOfJson? (j : Json) : Option Ref := do
  match ← j.record? ["name", "idx"] with
  | [name, idx] => return ⟨← name.string?, ← idx.list? Json.int64?⟩
  | _ => none

/-- An expression nested at most `depth` deep. -/
def exprUpTo? : Nat → Json → Option Expr
  | 0, _ => none
  | depth + 1, j => do
    let (name, content) ← j.variant?
    match name with
    | "Binary" =>
      match ← content.fields? ["rule", "operands", "operators"] with
      | [rule, operands, operators] =>
        return .binary (← rule.string?) (← operands.list? (exprUpTo? depth))
          (← operators.list? Json.string?)
      | _ => none
    | "Unary" =>
      match ← content.fields? ["operators", "operand"] with
      | [operators, operand] =>
        return .unary (← operators.list? Json.string?) (← exprUpTo? depth operand)
      | _ => none
    | "Call" =>
      match ← content.fields? ["name", "args"] with
      | [name, args] => return .operand (.call (← name.string?) (← args.list? (exprUpTo? depth)))
      | _ => none
    | "Ref" => return .operand (.ref (← refOfJson? content))
    | "Num" => return .operand (.num (← content.number?))
    | "Paren" => return .operand (.paren (← exprUpTo? depth content))
    | "Var" => return .operand (.var (← content.string?))
    | _ => none

def exprOfJson? (j : Json) : Option Expr := exprUpTo? j.depth j

def inputOfJson? (j : Json) : Option Input := do
  match ← j.record? ["name", "size"] with
  | [name, size] => return ⟨← name.string?, ← size.list? (Json.natBelow? (1 <<< 64))⟩
  | _ => none

def bindingOfJson? (j : Json) : Option (Binding Expr) := do
  match ← j.record? ["name", "expr"] with
  | [name, value] => return ⟨← name.string?, ← exprOfJson? value⟩
  | _ => none

def outputOfJson? (j : Json) : Option (Output Expr) := do
  match ← j.record? ["lets", "target", "expr"] with
  | [bindings, target, value] =>
    return ⟨← refOfJson? target, ← bindings.list? bindingOfJson?, ← exprOfJson? value⟩
  | _ => none

def programOfJson? (j : Json) : Option Program := do
  match ← j.record? ["iterate", "app_name", "kernel_count", "input_stmts", "output_stmt"] with
  | [iterate, name, count, inputs, output] =>
    return ⟨← iterate.natBelow? (1 <<< 32), ← name.string?, ← count.natBelow? (1 <<< 32),
      ← inputs.list? inputOfJson?, ← outputOfJson? output⟩
  | _ => none

end Surface

end GridSweep
