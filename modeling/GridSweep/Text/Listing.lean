/-!
# Listings

Text of sequences: items separated by a comma and a blank, with or without brackets around them.
Values in the listings of the command line are records: an alternative with named fields between
braces, or with one value in parentheses.
-/

namespace GridSweep

namespace Listing

/-- `a, b, c` -/
def commas (items : List String) : String := ", ".intercalate items

/-- `[a, b, c]` -/
def bracketed (items : List String) : String := "[" ++ commas items ++ "]"

/-- A map between braces, with a colon after each key. -/
def braced (entries : List (String × String)) : String :=
  "\x7b" ++ commas (entries.map fun (k, v) => k ++ ": " ++ v) ++ "\x7d"

/-- A text between double quotes, as it is. -/
def quoted (text : String) : String := "\"" ++ text ++ "\""

/-- Blanks on the left up to a width. -/
def padLeft (width : Nat) (s : String) : String :=
  String.ofList (List.replicate (width - s.length) ' ') ++ s

/-- Blanks on the right up to a width. -/
def padRight (width : Nat) (s : String) : String :=
  s ++ String.ofList (List.replicate (width - s.length) ' ')

end Listing

namespace Record

/-- `Name { a: x, b: y }` -/
def named (name : String) (fields : List (String × String)) : String :=
  name ++ " \x7b " ++ Listing.commas (fields.map fun (k, v) => k ++ ": " ++ v) ++ " \x7d"

/-- `Name(x)` -/
def wrapped (name value : String) : String := name ++ "(" ++ value ++ ")"

def optional : Option String → String
  | some value => wrapped "Some" value
  | none => "None"

end Record

end GridSweep
