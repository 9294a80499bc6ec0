import GridSweep.File.Path
import GridSweep.Ordered

/-!
# File trees

The files and directories around a working directory, with the operations that a command performs
on them. Everything on the way to a file has to be a directory.

A place is the list of steps that lead to it: from the working directory, with steps up at the front
only, or from the root of the file system, which is the step `/`. The working directory, those above
it and the root are always there; nothing else is known to be outside the working directory.
-/

namespace GridSweep

/-- Why an operation on a file failed: the number and the wording of the operating system. -/
structure FileFault where
  code : Nat
  reason : String
deriving DecidableEq, Repr

namespace FileFault

def notFound : FileFault := ⟨2, "No such file or directory"⟩
def alreadyExists : FileFault := ⟨17, "File exists"⟩
def notDirectory : FileFault := ⟨20, "Not a directory"⟩
def isDirectory : FileFault := ⟨21, "Is a directory"⟩
def permissionDenied : FileFault := ⟨13, "Permission denied"⟩
def nameTooLong : FileFault := ⟨36, "File name too long"⟩

/-- The faults with a wording of their own. -/
def common : List FileFault :=
  [notFound, permissionDenied, alreadyExists, notDirectory, isDirectory, nameTooLong]

/-- The fault of a reported number, which may be given as its negative in 32 bits. -/
def ofReport (number : Nat) (reason : String) : FileFault :=
  let code := if 1 <<< 31 ≤ number then 1 <<< 32 - number else number
  (common.find? (·.code == code)).getD ⟨code, reason⟩

def message (f : FileFault) : String := s!"{f.reason} (os error {f.code})"

end FileFault

inductive FileEntry where
  | file (text : String)
  | dir
deriving DecidableEq, Repr

/-- What stands at each place, in order of places. -/
structure FileTree where
  entries : List (List String × FileEntry)
deriving DecidableEq, Repr

namespace FileTree

def empty : FileTree := ⟨[]⟩

/-- The root of the file system. -/
def root : List String := ["/"]

/-- The working directory, one above it, or the root. -/
def isFixed (place : List String) : Bool := place.all (· == "..") || place == root

def entry? (t : FileTree) (place : List String) : Option FileEntry :=
  if isFixed place then some .dir else Ordered.get? place t.entries

def put (t : FileTree) (place : List String) (e : FileEntry) : FileTree :=
  ⟨Ordered.put place e t.entries⟩

/-- A place that has to be a directory. -/
def requireDir (t : FileTree) (place : List String) : Except FileFault Unit :=
  match t.entry? place with
  | none => .error .notFound
  | some (.file _) => .error .notDirectory
  | some .dir => .ok ()

/-- One part of a path, from a directory. Above the root is the root. -/
def step (place : List String) (part : String) : List String :=
  if part = "" ∨ part = "." then place
  else if part ≠ ".." then place ++ [part]
  else if place = root then root
  else if isFixed place then place ++ [".."]
  else place.dropLast

/-- One part of a path, from a place that has to be a directory. -/
def enter (t : FileTree) (place : List String) (part : String) :
    Except FileFault (List String) := do
  t.requireDir place
  if Path.maxPartBytes < part.utf8ByteSize then throw .nameTooLong
  return step place part

/-- Where a path starts; too long a path leads nowhere. -/
def origin (path : String) : Except FileFault (List String) :=
  if Path.maxBytes < path.utf8ByteSize then .error .nameTooLong
  else .ok (if Path.isAbsolute path then root else [])

/-- The place a path leads to, whether or not there is anything. -/
def locate (t : FileTree) (path : String) : Except FileFault (List String) := do
  (Path.parts path).foldlM t.enter (← origin path)

def read (t : FileTree) (path : String) : Except FileFault String := do
  match t.entry? (← t.locate path) with
  | none => .error .notFound
  | some .dir => .error .isDirectory
  | some (.file text) => .ok text

def isDir (t : FileTree) (path : String) : Bool :=
  match t.locate path with
  | .ok place => t.entry? place = some .dir
  | .error _ => false

/-- The path without slashes at its end. -/
def trimmed (path : String) : String :=
  String.ofList (path.toList.reverse.dropWhile (· == '/')).reverse

/-- Makes one directory. -/
def createDir (t : FileTree) (path : String) : Except FileFault FileTree := do
  discard (origin path)
  let target ← t.locate (trimmed path)
  let name := (Path.parts (trimmed path)).getLast?.getD ""
  if name = "." ∨ name = ".." ∨ (t.entry? target).isSome then throw .alreadyExists
  return t.put target .dir

/-- Writes a file, over the one that is there. -/
def write (t : FileTree) (path text : String) : Except FileFault FileTree := do
  let target ← t.locate path
  if t.entry? target = some .dir then throw .isDirectory
  return t.put target (.file text)

/-- Adds a file and the directories above it. -/
def addFile (t : FileTree) (path text : String) : FileTree :=
  let steps := Path.steps path
  let t := (List.range (steps.length - 1)).foldl (fun t n => t.put (steps.take (n + 1)) .dir) t
  t.put steps (.file text)

/-- The working directory does not contain the places that lead up or start at the root. -/
def isInside (place : List String) : Bool :=
  match place.head? with
  | none => true
  | some first => first != ".." && first != "/"

/-- The paths and texts of all files in the working directory. -/
def files (t : FileTree) : List (String × String) :=
  t.entries.filterMap fun
    | (place, .file text) => if isInside place then some (Path.ofSteps false place, text) else none
    | (_, .dir) => none

end FileTree

end GridSweep
