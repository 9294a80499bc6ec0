import GridSweep.Json.Basic
import GridSweep.Number.Notation

/-!
# Writing JSON

`pretty` writes one item per line, two blanks deeper than what holds it; `compact` writes no
blanks at all. Both keep the order of fields. Non-ASCII characters stand as they are.
-/

namespace GridSweep.Json

def hexChar (n : Nat) : Char := if n < 10 then Char.ofNat (48 + n) else Char.ofNat (87 + n)

/-- A character inside a string. -/
def escapeChar (c : Char) : List Char :=
  if c = '"' then ['\\', '"']
  else if c = '\\' then ['\\', '\\']
  else if c = '\n' then ['\\', 'n']
  else if c = '\r' then ['\\', 'r']
  else if c = '\t' then ['\\', 't']
  else if c = '\x08' then ['\\', 'b']
  else if c = '\x0c' then ['\\', 'f']
  else if c.toNat < 32 then ['\\', 'u', '0', '0', hexChar (c.toNat / 16), hexChar (c.toNat % 16)]
  else [c]

/-- A string between quotes. -/
def quote (s : String) : String := String.ofList ('"' :: (s.toList.flatMap escapeChar ++ ['"']))

/-- The text of everything but arrays and objects. -/
def leafText : Json → String
  | .bool b => if b then "true" else "false"
  | .int n => toString n
  | .float v => v.text
  | .string s => quote s
  | _ => "null"

mutual

def compact : Json → String
  | .array items => "[" ++ ",".intercalate (compactItems items) ++ "]"
  | .object fields => "\x7b" ++ ",".intercalate (compactFields fields) ++ "\x7d"
  | leaf => leaf.leafText

def compactItems : List Json → List String
  | [] => []
  | v :: vs => v.compact :: compactItems vs

def compactFields : List (String × Json) → List String
  | [] => []
  | (k, v) :: fs => (quote k ++ ":" ++ v.compact) :: compactFields fs

end

/-- A new line, indented by two blanks per level. -/
def newline (depth : Nat) : String := "\n" ++ String.ofList (List.replicate (2 * depth) ' ')

/-- Items on lines of their own; nothing stands between the brackets where there are none. -/
def block (depth : Nat) (left : String) (items : List String) (right : String) : String :=
  if items.isEmpty then left ++ right
  else left ++ newline (depth + 1) ++ ("," ++ newline (depth + 1)).intercalate items ++
    newline depth ++ right

mutual

def prettyAt (depth : Nat) : Json → String
  | .array items => block depth "[" (prettyItems (depth + 1) items) "]"
  | .object fields => block depth "\x7b" (prettyFields (depth + 1) fields) "\x7d"
  | leaf => leaf.leafText

def prettyItems (depth : Nat) : List Json → List String
  | [] => []
  | v :: vs => v.prettyAt depth :: prettyItems depth vs

def prettyFields (depth : Nat) : List (String × Json) → List String
  | [] => []
  | (k, v) :: fs => (quote k ++ ": " ++ v.prettyAt depth) :: prettyFields depth fs

end

def pretty (v : Json) : String := v.prettyAt 0

end GridSweep.Json
