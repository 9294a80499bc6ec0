import GridSweep.Exchange.Role
import GridSweep.Text.Listing
import GridSweep.Token

/-!
# Errors

Every way a compilation can fail, as a cause with its facts, and the wording of each cause in one
place: `Error.message`.
-/

namespace GridSweep

/-- What the parser missed or met. `none` as a token is the end of the input. -/
inductive ParseFault where
  | expected (token : Token) (got : Option Token)
  | expectedIdentifier (got : Option Token)
  | expectedInteger (got : Option Token)
  | outOfRange (field : Keyword) (value : Nat)
  | trailing (token : Token)
  | endOfInput
  | unexpected (token : Token)
  | missingArgument (function : String)
deriving DecidableEq, Repr

/-- What is wrong with the operators of one node. -/
inductive OperatorFault where
  | unknownRule
  | count (operands operators : Nat)
  | rejected (operator : String)
  | notPrefix (operator : String)
deriving DecidableEq, Repr

/-- A program or a target that no accelerator can be configured for. -/
inductive ConfigFault where
  | noInputs
  | sizeMismatch (input : String) (size : List Nat) (first : String) (firstSize : List Nat)
  | declaredTwice (input : String)
  | zeroIterations
  | zeroPartitions
  | unevenSplit (rows partitions : Nat)
  | outputIsInput (name : String)
  | bareInput (name : String)
  | unreadable
  | wordWidth (bits : Nat)
  | unrollMismatch (unroll lanes bits : Nat)
  | zeroStages
  | zeroDepth
  | partialWord (columns lanes : Nat)
  | rowTooNarrow (name : String) (blocks rowWords : Nat)
  | noOwnedRows
  | haloTooLarge (owned top bottom : Nat)
deriving DecidableEq, Repr

/-- A partition that could not finish its halo exchange, with the words of its current step that
were still to be moved. -/
structure StuckPartition where
  index : Nat
  transfer : Transfer
  neighbor : Neighbor
  left : Nat
deriving DecidableEq, Repr

/-- A layout that cannot be turned into kernel events. -/
inductive EmissionFault where
  | aboveFeed (name : String) (row : Int) (centerRow : Nat)
  | neverRead (name : String) (offset : List Int)
  | noStorage (name : String) (row word : Int)
  | noBuffer (name : String)
  | noNeighbor (partition : Nat) (role : Role) (neighbor : Neighbor)
  | deadlock (rounds : Nat) (stuck : List StuckPartition)
deriving DecidableEq, Repr

/-- A quantity beyond what words and memory can express. -/
inductive LimitFault where
  /-- A word of no lanes, a loop that produces no elements per step, or a sweep of no stages. -/
  | zeroDivisor
  /-- A sum, product or quotient that does not fit into its word. -/
  | overflow
  /-- A list of so many items. -/
  | listLength (items : Nat)
deriving DecidableEq, Repr

inductive Error where
  | lexical (position : Nat)
  | parse (fault : ParseFault)
  | dimensionMismatch (expected got : Nat)
  | emptyFootprint (name : String)
  | unknownFunction (name : String)
  | malformedOperators (rule : String) (fault : OperatorFault)
  | undefinedVariable (name : String)
  | config (fault : ConfigFault)
  | unsupportedDimensions (dims : Nat)
  | unsupportedLookback (name : String) (row offset : Int)
  | emission (fault : EmissionFault)
  | limit (fault : LimitFault)
deriving DecidableEq, Repr

/-! ### Wording -/

def describeToken : Option Token → String
  | some t => s!"'{t.text}'"
  | none => "end of input"

def ParseFault.message : ParseFault → String
  | expected token got => s!"Expected '{token.text}', got {describeToken got}"
  | expectedIdentifier got => s!"Expected identifier, got {describeToken got}"
  | expectedInteger got => s!"Expected integer, got {describeToken got}"
  | outOfRange field value => s!"{field.text} out of range: {value}"
  | trailing token => s!"Unexpected trailing {describeToken (some token)}"
  | endOfInput => "Unexpected end of input"
  | unexpected token => s!"Unexpected token: {describeToken (some token)}"
  | missingArgument function => s!"{function}() needs an argument"

def OperatorFault.message : OperatorFault → String
  | unknownRule => "unknown grammar rule"
  | count operands operators =>
    s!"{operands} operands need {operands - 1} operators, found {operators}"
  | rejected operator => s!"operator '{operator}' is not accepted here"
  | notPrefix operator => s!"operator '{operator}' is not a prefix operator"

def ConfigFault.message : ConfigFault → String
  | noInputs => "program declares no inputs"
  | sizeMismatch input size first firstSize =>
    let sizes := Listing.bracketed (size.map toString)
    let firstSizes := Listing.bracketed (firstSize.map toString)
    s!"input '{input}' is {sizes} but '{first}' is {firstSizes}; all inputs must share one grid"
  | declaredTwice input => s!"input '{input}' declared twice"
  | zeroIterations => "ITERATE must be at least 1"
  | zeroPartitions => "COUNT must be at least 1"
  | unevenSplit rows partitions =>
    s!"{rows} rows cannot be split evenly into {partitions} partitions"
  | outputIsInput name => s!"output '{name}' must not also be an input"
  | bareInput name => s!"input '{name}' is used without coordinates"
  | unreadable => "invalid accelerator config"
  | wordWidth bits => s!"word width {bits} is not a multiple of 32 bits"
  | unrollMismatch unroll lanes bits =>
    s!"unroll factor {unroll} must equal the {lanes} lanes of a {bits}-bit word"
  | zeroStages => "stage count must be at least 1"
  | zeroDepth => "channel depth must be at least 1"
  | partialWord columns lanes =>
    s!"{columns} grid columns are not a whole number of {lanes}-lane words"
  | rowTooNarrow name blocks rowWords =>
    s!"'{name}' needs {blocks} blocks per row but a row is only {rowWords} words"
  | noOwnedRows => "partitions must own at least one row"
  | haloTooLarge owned top bottom =>
    s!"a partition of {owned} rows cannot supply {top}+{bottom} halo rows"

def StuckPartition.message (s : StuckPartition) : String :=
  s!"#{s.index} {s.transfer.name} {s.neighbor.name} ({s.left} left)"

def EmissionFault.message : EmissionFault → String
  | aboveFeed name row centerRow =>
    s!"'{name}' row {row} lies above its feed (center row {centerRow})"
  | neverRead name offset =>
    let coordinates := Listing.bracketed (offset.map toString)
    s!"'{name}' is never read at {coordinates}"
  | noStorage name row word => s!"'{name}' row {row} has no storage for word {word}"
  | noBuffer name => s!"no buffer for '{name}'"
  | noNeighbor partition role neighbor =>
    s!"partition {partition} ({role.name}) has no neighbour {neighbor.name}"
  | deadlock rounds stuck =>
    let stuckList := Listing.commas (stuck.map StuckPartition.message)
    s!"halo exchange deadlocks after {rounds} rounds: {stuckList}"

def LimitFault.message : LimitFault → String
  | zeroDivisor => "division by zero"
  | overflow => "result does not fit into a word"
  | listLength items => s!"no memory holds a list of {items} items"

def Error.message : Error → String
  | lexical position => s!"Lexer error at position {position}: unrecognized character"
  | parse fault => s!"Parser error: {fault.message}"
  | dimensionMismatch expected got =>
    s!"Dimension mismatch: expected {expected} coordinates, got {got}"
  | emptyFootprint name =>
    s!"Input variable '{name}' is never referenced by the output expression"
  | unknownFunction name => s!"Unknown function: {name}"
  | malformedOperators rule fault => s!"Malformed operator list in {rule}: {fault.message}"
  | undefinedVariable name => s!"Undefined variable: {name}"
  | config fault => s!"Configuration error: {fault.message}"
  | unsupportedDimensions dims =>
    s!"Unsupported dimensionality: {dims}-D grids are not handled by the row/column layout"
  | unsupportedLookback name row offset =>
    s!"Unsupported lookback for '{name}' row {row}: " ++
      s!"column offset {offset} needs more than one popped register"
  | emission fault => s!"Code generation error: {fault.message}"
  | limit fault => s!"Limit exceeded: {fault.message}"

end GridSweep
