/-!
# Paths

A path is text; its parts are separated by slashes. Empty parts count for nothing, and so does a dot
after the first part.
-/

namespace GridSweep.Path

/-- The text between slashes. -/
def parts (path : String) : List String := path.splitOn "/"

/-- The parts that lead somewhere: no empty one, and a dot at the front only. -/
def steps (path : String) : List String :=
  match (parts path).filter (· ≠ "") with
  | [] => []
  | first :: rest => first :: rest.filter (· ≠ ".")

/-- A path starts at the root of the file system or at the working directory. -/
def isAbsolute (path : String) : Bool := path.startsWith "/"

def ofSteps (absolute : Bool) (steps : List String) : String :=
  (if absolute then "/" else "") ++ "/".intercalate steps

/-- The directories above a path, the nearest first; the working directory is not among them. -/
def ancestors (path : String) : List String :=
  let all := steps path
  (List.range (all.length - 1)).reverse.map fun n => ofSteps (isAbsolute path) (all.take (n + 1))

/-- The most bytes in a path. -/
def maxBytes : Nat := 4095

/-- The most bytes in one part of a path. -/
def maxPartBytes : Nat := 255

/-- The path of a file in a directory. -/
def join (dir file : String) : String :=
  if dir.endsWith "/" then dir ++ file else dir ++ "/" ++ file

end GridSweep.Path
