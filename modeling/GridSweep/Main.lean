import GridSweep.Command.Run

/-!
# The command on a machine

Files and console of the operating system as a host, and the entry point.
-/

namespace GridSweep.Command

/-- The fault that an operation failed with. -/
def faultOf : IO.Error → FileFault
  | .noFileOrDirectory _ code reason => .ofReport code.toNat reason
  | .alreadyExists _ code reason => .ofReport code.toNat reason
  | .inappropriateType _ code reason => .ofReport code.toNat reason
  | .permissionDenied _ code reason => .ofReport code.toNat reason
  | .invalidArgument _ code reason => .ofReport code.toNat reason
  | .resourceExhausted _ code reason => .ofReport code.toNat reason
  | .otherError code reason => .ofReport code.toNat reason
  | e => ⟨0, toString e⟩

def attempt {α : Type} (act : IO α) : IO (Except FileFault α) := do
  try return .ok (← act) catch e => return .error (faultOf e)

/-- The rest of the input. -/
partial def readRest (input : IO.FS.Stream) (text : String) : IO String := do
  let line ← input.getLine
  if line.isEmpty then return text else readRest input (text ++ line)

def machine : Host IO where
  readFile path := attempt (IO.FS.readFile path)
  readInput := attempt do readRest (← IO.getStdin) ""
  isDir path := do
    match ← attempt (IO.FS.readFile path) with
    | .ok _ => return false
    | .error f => return f.code == FileFault.isDirectory.code
  createDir path := attempt (IO.FS.createDir path)
  writeFile path text := attempt (IO.FS.writeFile path text)
  print text := IO.print text
  printError text := IO.eprint text

end GridSweep.Command

def main (args : List String) : IO UInt32 := GridSweep.Command.run GridSweep.Command.machine args
