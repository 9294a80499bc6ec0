import GridSweep.Kernel.Basic
import Mathlib.Logic.Function.Basic

/-!
# The machine that runs the events

A machine has the storage elements of the stage that runs, the channels between stages and the
memory buffers. Words have `w` bits, and an element of the grid is a field of 32 bits. `exec` says
what each operation does. A machine stops when it takes a word from an empty queue or channel, or
when it puts a word into a full queue.
-/

namespace GridSweep

/-- Why a machine stops. -/
inductive Fault where
  | emptyQueue (name : String)
  | fullQueue (name : String)
  | emptyChannel (name : String)
deriving DecidableEq, Repr

/-- Whether a fault is one of a line buffer's queues. -/
def Fault.ofQueue : Fault → Bool
  | emptyQueue _ | fullQueue _ => true
  | emptyChannel _ => false

/-- The contents of the storage elements, by name. -/
structure Store (w : Nat) where
  regs : String → BitVec w
  queues : String → List (BitVec w)
  /-- Words that a queue has room for. -/
  depths : String → Nat

namespace Store

variable {w : Nat}

/-- Registers are zero and queues are empty. -/
def fresh : Store w where
  regs _ := 0
  queues _ := []
  depths _ := 0

def setReg (s : Store w) (name : String) (v : BitVec w) : Store w :=
  { s with regs := Function.update s.regs name v }

def setQueue (s : Store w) (name : String) (vs : List (BitVec w)) : Store w :=
  { s with queues := Function.update s.queues name vs }

/-- An element starts as zero or empty; a queue gets its depth. -/
def declare (s : Store w) (e : Element) : Store w :=
  match e.kind with
  | .queue depth => { s.setQueue e.name [] with depths := Function.update s.depths e.name depth }
  | .block _ | .popped _ => s.setReg e.name 0

def push (s : Store w) (queue : String) (v : BitVec w) : Except Fault (Store w) :=
  if (s.queues queue).length < s.depths queue then .ok (s.setQueue queue (s.queues queue ++ [v]))
  else .error (.fullQueue queue)

def pop (s : Store w) (queue : String) : Except Fault (BitVec w × Store w) :=
  match s.queues queue with
  | [] => .error (.emptyQueue queue)
  | v :: vs => .ok (v, s.setQueue queue vs)

/-- The word that an element gives to its predecessor. -/
def take (s : Store w) (e : Element) : Except Fault (BitVec w × Store w) :=
  if e.isQueue then s.pop e.name else .ok (s.regs e.name, s)

/-- An element receives a word. -/
def put (s : Store w) (e : Element) (v : BitVec w) : Except Fault (Store w) :=
  if e.isQueue then s.push e.name v else .ok (s.setReg e.name v)

/-- A queue loses words. -/
def popMany (s : Store w) (queue : String) (words : Nat) : Except Fault (Store w) :=
  (List.range words).foldlM (fun s _ => return (← s.pop queue).2) s

end Store

/-- What the streams and the memory hold. -/
structure Supply (w : Nat) where
  channels : String → List (BitVec w)
  memory : String → Nat → BitVec w

namespace Supply

variable {w : Nat}

/-- Takes the next word of a channel, or the word at an address of a buffer. -/
def receive (p : Supply w) (source : Endpoint) (address : Nat) :
    Except Fault (BitVec w × Supply w) :=
  match source with
  | .memory buffer => .ok (p.memory buffer address, p)
  | .stream name =>
    match p.channels name with
    | [] => .error (.emptyChannel name)
    | v :: vs => .ok (v, { p with channels := Function.update p.channels name vs })

/-- Throws words away. -/
def discard (p : Supply w) (source : Endpoint) (words : Nat) : Except Fault (Supply w) :=
  (List.range words).foldlM (fun p i => return (← p.receive source i).2) p

/-- Appends a word to a channel, or writes it to an address of a buffer. -/
def send (p : Supply w) (target : Endpoint) (address : Nat) (v : BitVec w) : Supply w :=
  match target with
  | .memory buffer =>
    let words := Function.update (p.memory buffer) address v
    { p with memory := Function.update p.memory buffer words }
  | .stream name =>
    { p with channels := Function.update p.channels name (p.channels name ++ [v]) }

end Supply

/-- A machine in the middle of a stage. -/
structure Machine (w : Nat) where
  store : Store w
  supply : Supply w
  /-- The lane values of the taps that have been read. -/
  taps : String → Option (Nat → BitVec 32)
  /-- The word that the lanes have computed. -/
  result : BitVec w

/-- A machine that has not done anything yet. -/
def Machine.start {w : Nat} (supply : Supply w) : Machine w where
  store := .fresh
  supply
  taps _ := none
  result := 0

/-! ## Operations of a line buffer -/

section Operations

variable {w : Nat}

def InitOp.exec (m : Machine w) : InitOp → Except Fault (Machine w)
  | .discard source words => return { m with supply := ← m.supply.discard source words }
  | .load target source address => do
    let (v, supply) ← m.supply.receive source address
    return { m with store := m.store.setReg target v, supply }
  | .fill queue source first count =>
    (List.range count).foldlM (fun m i => do
      let (v, supply) ← m.supply.receive source (first + i)
      return { m with store := ← m.store.push queue v, supply }) m

/-- An operation of a loop step; a fetch counts steps. -/
def AdvanceOp.exec (step : Nat) (m : Machine w) : AdvanceOp → Except Fault (Machine w)
  | .delay target source => return { m with store := m.store.setReg target (m.store.regs source) }
  | .shift target source => do
    let (v, store) ← m.store.take source
    return { m with store := ← store.put target v }
  | .fetch target source first validSteps => do
    let (v, supply) ←
      (if step < validSteps then m.supply.receive source (first + step) else .ok (0, m.supply))
    return { m with store := ← m.store.put target v, supply }

def DrainOp.exec (m : Machine w) : DrainOp → Except Fault (Machine w)
  | .queue name words => return { m with store := ← m.store.popMany name words }
  | .surplus source words => return { m with supply := ← m.supply.discard source words }

namespace Machine

/-- Runs operations in the order in which they are listed. -/
def fill (m : Machine w) (ops : List InitOp) : Except Fault (Machine w) :=
  ops.foldlM InitOp.exec m

/-- One loop step. -/
def step (ops : List AdvanceOp) (m : Machine w) (i : Nat) : Except Fault (Machine w) :=
  ops.foldlM (AdvanceOp.exec i) m

/-- The first `n` loop steps. -/
def steps (m : Machine w) (ops : List AdvanceOp) (n : Nat) : Except Fault (Machine w) :=
  (List.range n).foldlM (step ops) m

def drain (m : Machine w) (ops : List DrainOp) : Except Fault (Machine w) :=
  ops.foldlM DrainOp.exec m

def declare (m : Machine w) (elements : List Element) : Machine w :=
  { m with store := elements.foldl Store.declare m.store }

end Machine

end Operations

/-! ## Lanes -/

/-- The bits of a word from `range.2` up to `range.1`, as an element. -/
def bitsAt {w : Nat} (word : BitVec w) (range : Int × Int) : BitVec 32 :=
  (word.extractLsb range.1.toNat range.2.toNat).setWidth 32

/-- Element `k` of a word. -/
def element {w : Nat} (word : BitVec w) (k : Nat) : BitVec 32 := word.extractLsb' (32 * k) 32

/-- What a lane reads. -/
def LaneRead.value {w : Nat} (s : Store w) (r : LaneRead) (lane : Nat) : BitVec 32 :=
  bitsAt (s.regs (r.resolve lane).element) ((r.resolve lane).bitRange lane)

/-- The word whose first `u` elements are given. -/
def packWord (w u : Nat) (lanes : Nat → BitVec 32) : BitVec w :=
  (List.range u).foldl (fun word k => word ||| (lanes k).setWidth w <<< (32 * k)) 0

/-! ## Stages and kernels -/

section Stages

variable {w : Nat}

/-- The point function and the scalars that a kernel is called with. -/
structure Computation where
  point : List (BitVec 32) → BitVec 32
  scalar : String → BitVec 32

/-- An argument is the tap of that name, and a scalar if there is no such tap. -/
def Computation.argument (c : Computation) (m : Machine w) (lane : Nat) (name : String) :
    BitVec 32 :=
  match m.taps name with
  | some values => values lane
  | none => c.scalar name

/-- The result of a lane. A stage that skips takes the forwarded tap. -/
def Computation.lane (c : Computation) (m : Machine w) (skip : Bool) (args : List String)
    (skipForward : Option String) (lane : Nat) : BitVec 32 :=
  match skip, skipForward with
  | true, some tap => c.argument m lane tap
  | _, _ => c.point (args.map (c.argument m lane))

/-- An event in loop step `i` of a loop with `u` lanes. -/
def Event.exec (c : Computation) (skip : Bool) (u i : Nat) (m : Machine w) :
    Event → Except Fault (Machine w)
  | .declare e => .ok (m.declare [e])
  | .init op => op.exec m
  | .laneRead tap read =>
    .ok { m with taps := Function.update m.taps tap (some (read.value m.store)) }
  | .compute _ args skipForward =>
    .ok { m with result := packWord w u (c.lane m skip args skipForward) }
  | .store target first => .ok { m with supply := m.supply.send target (first + i) m.result }
  | .advance op => op.exec i m
  | .drain op => op.exec m
  | .beginLoop _ _ | .endLoop => .ok m

def Event.isBeginLoop : Event → Bool
  | .beginLoop _ _ => true
  | _ => false

def Event.isEndLoop : Event → Bool
  | .endLoop => true
  | _ => false

namespace Machine

/-- Runs events that stand outside of a loop, or once inside of one. -/
def events (c : Computation) (skip : Bool) (u i : Nat) (m : Machine w) (es : List Event) :
    Except Fault (Machine w) :=
  es.foldlM (Event.exec c skip u i) m

/-- Runs the events of a stage: those in front of the loop, the loop, and those after it. -/
def stage (c : Computation) (skip : Bool) (m : Machine w) (es : List Event) :
    Except Fault (Machine w) := do
  let m ← ({ m with store := .fresh, taps := fun _ => none } : Machine w).events c skip 0 0
    (es.takeWhile (!·.isBeginLoop))
  match es.dropWhile (!·.isBeginLoop) with
  | .beginLoop trips u :: rest =>
    let m ← (List.range trips).foldlM
      (fun m i => m.events c skip u i (rest.takeWhile (!·.isEndLoop))) m
    m.events c skip u 0 ((rest.dropWhile (!·.isEndLoop)).drop 1)
  | _ => return m

/-- Runs the stages of a kernel in order, each with its skip flag. -/
def kernel (c : Computation) (m : Machine w) (stages : List (Stage × Bool)) :
    Except Fault (Machine w) :=
  stages.foldlM (fun m (stage, skip) => m.stage c skip stage.events) m

end Machine

end Stages

end GridSweep
