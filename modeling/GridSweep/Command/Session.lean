import GridSweep.Command.Run

/-!
# Runs in memory

A session is a file tree together with the text on the input and the texts printed so far. The
command runs on it like on the files and the console of a machine.
-/

namespace GridSweep.Command

structure Session where
  tree : FileTree
  input : String
  output : String
  errors : String
deriving Repr

namespace Session

def start (tree : FileTree) (input : String) : Session := ⟨tree, input, "", ""⟩

/-- Replaces the tree, unless the operation failed. -/
def update (change : FileTree → Except FileFault FileTree) :
    StateM Session (Except FileFault Unit) :=
  modifyGet fun s =>
    match change s.tree with
    | .ok t => (.ok (), { s with tree := t })
    | .error f => (.error f, s)

def host : Host (StateM Session) where
  readFile path := return (← get).tree.read path
  readInput := return .ok (← get).input
  isDir path := return (← get).tree.isDir path
  createDir path := update (·.createDir path)
  writeFile path text := update (·.write path text)
  print text := modify fun s => { s with output := s.output ++ text }
  printError text := modify fun s => { s with errors := s.errors ++ text }

/-- The exit code of a run, and the session after it. -/
def run (s : Session) (args : List String) : UInt32 × Session := (Command.run host args).run s

/-- The files of the tree that are not the same before a run. -/
def changes (before after : FileTree) : List (String × String) :=
  after.files.filter fun f => f ∉ before.files

end Session

end GridSweep.Command
