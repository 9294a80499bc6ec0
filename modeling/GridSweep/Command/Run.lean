import GridSweep.Command.Options
import GridSweep.Command.Report
import GridSweep.File.Tree
import GridSweep.Kernel.Export
import GridSweep.Kernel.Generate
import GridSweep.Kernel.Printer

/-!
# Running the command

The command reads a program from a file or from its input, compiles it for the target that the
options describe, and prints or writes what is asked for. It works in any monad that has files and
a console (`Host`), so that a run can be followed on a file tree in memory.
-/

namespace GridSweep.Command

/-- The files and the console that a run works with. -/
structure Host (m : Type → Type) where
  readFile : String → m (Except FileFault String)
  readInput : m (Except FileFault String)
  isDir : String → m Bool
  createDir : String → m (Except FileFault Unit)
  writeFile : String → String → m (Except FileFault Unit)
  print : String → m Unit
  printError : String → m Unit

variable {m : Type → Type} [Monad m]

/-- A step of a run; it stops at the first failure, which is a line for the error output. -/
abbrev Step (m : Type → Type) := ExceptT String m

/-- The result of an operation on a file; `doing` says what failed. -/
def check {α : Type} (doing : String) (result : m (Except FileFault α)) : Step m α := do
  match ← result with
  | .ok a => return a
  | .error f => throw s!"Error: {doing}: {f.message}"

/-- The result of a stage of the compilation. -/
def checkStage {α : Type} (stage : String) : Except Error α → Step m α
  | .ok a => return a
  | .error e => throw s!"{stage}: {e.message}"

/-- A directory that cannot be made is no failure if it is there. -/
def settle (h : Host m) (path : String) : Except FileFault Unit → m (Except FileFault Unit)
  | .ok () => return .ok ()
  | .error f => do if ← h.isDir path then return .ok () else return .error f

/-- Makes a directory. Where one above it is missing, that one is made first. -/
def createDirs (h : Host m) (path : String) : List String → m (Except FileFault Unit)
  | [] => do settle h path (← h.createDir path)
  | parent :: above => do
    match ← h.createDir path with
    | .ok () => return .ok ()
    | .error f =>
      if f.code = FileFault.notFound.code then
        match ← createDirs h parent above with
        | .ok () => settle h path (← h.createDir path)
        | .error f => return .error f
      else settle h path (.error f)

def readSource (h : Host m) (o : Options) : Step m String :=
  match o.file with
  | some path => check s!"Failed to read file '{path}'" (h.readFile path)
  | none => check "Failed to read stdin" h.readInput

/-- The target of the configuration file, or the standard one. -/
def baseTarget (h : Host m) (o : Options) : Step m Accelerator := do
  match o.config with
  | none => return .standard
  | some path =>
    let text ← check s!"Failed to read config '{path}'" (h.readFile path)
    checkStage "Configuration error" (Accelerator.ofText text)

/-- Options go over the configuration. A word width brings its own number of lanes. -/
def Options.adjust (o : Options) (a : Accelerator) : Accelerator :=
  let a := match o.wordBits with
    | some bits => { a with wordBits := bits, unroll := bits / 32 }
    | none => a
  { a with unroll := o.unroll.getD a.unroll, stages := o.stages.getD a.stages }

/-- Writes a file into the output directory, or prints it under its name. -/
def deliver (h : Host m) (o : Options) (file text : String) : Step m Unit := do
  match o.outDir with
  | none => h.print s!"// ---- {file} ----\n{text}\n"
  | some dir =>
    check s!"Failed to create '{dir}'" (createDirs h dir (Path.ancestors dir))
    let path := Path.join dir file
    check s!"Failed to write '{path}'" (h.writeFile path text)
    h.print s!"wrote {path}\n"

/-- Prints or writes what the options ask for. -/
def produce (h : Host m) (o : Options) (d : Design) : Step m Unit := do
  if o.json then h.print (d.toJson.pretty ++ "\n")
  else
    match o.emit.getD .summary with
    | .summary => h.print (report d o.verbose)
    | .header => deliver h o (d.header.appName ++ ".h") d.headerText
    | .kernel =>
      for k in d.kernels do
        deliver h o (k.name ++ ".cpp") (d.kernelText k)

def compile (h : Host m) (o : Options) : Step m Unit := do
  let source ← readSource h o
  let target := o.adjust (← baseTarget h o)
  if o.verbose then h.print (banner target)
  produce h o (← checkStage "Compilation error" (compileSource source target))

def versionText : String := "stencilc 0.1.0\n"

def usageText : String := "Usage: stencilc [OPTIONS]\n"

def helpText : String :=
  "Compiles stencil programs to streaming accelerator kernels\n\n" ++ usageText ++
  unlines [
    "",
    "Options:",
    "  -f, --file <INPUT_FILE>      Read the program from a file instead of stdin",
    "  -c, --config <CONFIG_FILE>   Accelerator configuration as JSON; flags below override it",
    "  -u, --unroll <UNROLL>        Output elements per loop iteration",
    "  -w, --word-bits <WORD_BITS>  Transfer word width in bits",
    "  -s, --stages <STAGES>        Dataflow stages per kernel call",
    "  -e, --emit <EMIT>            What to produce [default: summary] " ++
      "[possible values: summary, header, kernel]",
    "  -o, --out-dir <OUT_DIR>      Write generated files here instead of stdout",
    "  -j, --json                   Output as JSON",
    "  -v, --verbose                Verbose output",
    "  -h, --help                   Print help",
    "  -V, --version                Print version"]

/-- Runs the command; the result is the exit code. -/
def run (h : Host m) (args : List String) : m UInt32 := do
  match Request.ofArgs args with
  | .help =>
    h.print helpText
    return 0
  | .version =>
    h.print versionText
    return 0
  | .misuse =>
    h.printError usageText
    return 2
  | .compile o =>
    match ← (compile h o).run with
    | .ok () => return 0
    | .error line =>
      h.printError (line ++ "\n")
      return 1

end GridSweep.Command
