import GridSweep.Node.References
import GridSweep.Node.Simplify
import GridSweep.Stencil.Basic

/-!
# Analysis

Checks a program and derives its stencil. The checks run in a fixed order and the first failure is
the error: the inputs, the header, the output target, the variables of the simplified statement,
its references, and last that every input is read.

The names of declared inputs are kept from one analysis to the next, also from one that failed.
-/

namespace GridSweep.Analysis

/-- The names of all inputs declared so far. -/
abbrev Declared := List String

/-- Declares inputs that share the size of `first`. Those in front of a faulty one stay declared. -/
def declareInputs (first : Input) : Declared → List Input → Except Error Unit × Declared
  | d, [] => (.ok (), d)
  | d, i :: is =>
    if i.size ≠ first.size then
      (.error (.config (.sizeMismatch i.name i.size first.name first.size)), d)
    else if i.name ∈ d then (.error (.config (.declaredTwice i.name)), d)
    else declareInputs first (d ++ [i.name]) is

/-- The numbers of the header, and the split of the rows into partitions. -/
def checkHeader (p : Program Node) (size : List Nat) : Except Error Unit :=
  let rows := size.headD 0
  if p.iterate = 0 then .error (.config .zeroIterations)
  else if p.partitions = 0 then .error (.config .zeroPartitions)
  else if rows = 0 ∨ rows % p.partitions ≠ 0 then .error (.config (.unevenSplit rows p.partitions))
  else .ok ()

/-- The output is no input, and its target has a coordinate per dimension. -/
def checkTarget (d : Declared) (target : Ref) (size : List Nat) : Except Error Unit :=
  if target.name ∈ d then .error (.config (.outputIsInput target.name))
  else if target.idx.length ≠ size.length then
    .error (.dimensionMismatch size.length target.idx.length)
  else .ok ()

/-- Adds a variable of expression number `position` to the scalars. Bindings are visible only after
their own expression. -/
def addScalar (d : Declared) (bound : List String) (position : Nat) (scalars : List String)
    (name : String) : Except Error (List String) :=
  if name ∈ d then .error (.config (.bareInput name))
  else
    match bound.findIdx? (· == name) with
    | some at' => if at' < position then .ok scalars else .error (.undefinedVariable name)
    | none => .ok (if name ∈ scalars then scalars else scalars ++ [name])

/-- The variables that no binding defines, in order of first use. -/
def scalarVars (d : Declared) (o : Output Node) : Except Error (List String) :=
  let bound := o.bindings.map (·.name)
  o.expressions.zipIdx.foldlM (fun scalars (e, position) =>
    e.distinctVars.foldlM (addScalar d bound position) scalars) []

/-- Every name that is read is declared. -/
def checkDeclared (d : Declared) (refs : Footprint) : Except Error Unit :=
  match refs.find? (·.1 ∉ d) with
  | some (name, _) => .error (.undefinedVariable name)
  | none => .ok ()

/-- Every input is read. -/
def checkRead (inputs : List String) (refs : Footprint) : Except Error Unit :=
  match inputs.find? fun name => (refs.get? name).isNone with
  | some name => .error (.emptyFootprint name)
  | none => .ok ()

/-- The stencil of a program whose inputs are declared. -/
def stencilOf (d : Declared) (p : Program Node) (size : List Nat) : Except Error Stencil := do
  checkHeader p size
  checkTarget d p.output.target size
  let output := Node.simplifyOutput p.output
  let scalars ← scalarVars d output
  let refs ← Node.outputFootprint output
  checkDeclared d refs
  let inputs := p.inputs.map (·.name)
  checkRead inputs refs
  return {
    iterate := p.iterate
    kernelName := p.kernelName
    partitions := p.partitions
    size
    inputVars := inputs
    outputVar := p.output.target.name
    outputIdx := p.output.target.idx
    output
    refs
    scalars }

/-- Analyses a program after others; also gives the names declared afterwards. -/
def run (d : Declared) (p : Program Node) : Except Error Stencil × Declared :=
  match p.inputs with
  | [] => (.error (.config .noInputs), d)
  | first :: _ =>
    match declareInputs first d p.inputs with
    | (.error e, d') => (.error e, d')
    | (.ok (), d') => (stencilOf d' p first.size, d')

end GridSweep.Analysis

namespace GridSweep

/-- The stencil of a program on its own. -/
def Program.analyze (p : Program Node) : Except Error Stencil := (Analysis.run [] p).1

end GridSweep
