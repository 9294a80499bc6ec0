import GridSweep.Exchange.Protocol

/-!
# Progress of the exchange

The partitions of a chain run their protocols word by word. Between two neighbours there is a
channel in each direction, which holds a bounded number of words: a send needs room, a receive
needs a word. In a round every partition, from top to bottom, moves one word if it can.

`checkProgress` counts the rounds until all steps are done, and reports a deadlock when a round
moves nothing.
-/

namespace GridSweep.Exchange

/-- What is left of a step. -/
structure Pending where
  neighbor : Neighbor
  transfer : Transfer
  words : Nat
deriving DecidableEq, Repr

/-- A chain of partitions in the middle of an exchange. -/
structure Chain where
  /-- The steps each partition has still to do, the current one first. -/
  todo : Array (List Pending)
  /-- Words on the channel from partition `i` down to partition `i + 1`. -/
  down : Array Nat
  /-- Words on the channel from partition `i + 1` up to partition `i`. -/
  up : Array Nat
deriving DecidableEq, Repr

/-- A channel of a chain. -/
inductive Link where
  | down (index : Nat)
  | up (index : Nat)
deriving DecidableEq, Repr

/-- The channel a partition uses, if it has that neighbour in a chain of `n`. -/
def link? (n p : Nat) : Neighbor → Transfer → Option Link
  | .below, .send => if p + 1 < n then some (.down p) else none
  | .below, .receive => if p + 1 < n then some (.up p) else none
  | .above, .send => if 0 < p then some (.up (p - 1)) else none
  | .above, .receive => if 0 < p then some (.down (p - 1)) else none

namespace Chain

def start (protocols : List ExchangeProtocol) : Chain where
  todo := (protocols.map fun p => p.steps.map fun s => ⟨s.neighbor, s.transfer, p.words s⟩).toArray
  down := (List.replicate (protocols.length - 1) 0).toArray
  up := (List.replicate (protocols.length - 1) 0).toArray

/-- Words on a channel. -/
def load (c : Chain) : Link → Nat
  | .down i => c.down.getD i 0
  | .up i => c.up.getD i 0

def setLoad (c : Chain) (l : Link) (words : Nat) : Chain :=
  match l with
  | .down i => { c with down := c.down.setIfInBounds i words }
  | .up i => { c with up := c.up.setIfInBounds i words }

/-- The words on a channel after one is sent or received; `none` if the move has to wait. -/
def moved? (capacity load : Nat) : Transfer → Option Nat
  | .send => if load < capacity then some (load + 1) else none
  | .receive => if 0 < load then some (load - 1) else none

/-- Steps without words are done. -/
def dropDone (steps : List Pending) : List Pending := steps.dropWhile (·.words == 0)

/-- Partition `p` moves one word if it can. -/
def turn (capacity : Nat) (roles : List Role) (c : Chain) (p : Nat) : Except Error Chain :=
  match dropDone (c.todo.getD p []) with
  | [] => .ok { c with todo := c.todo.setIfInBounds p [] }
  | s :: rest =>
    match link? c.todo.size p s.neighbor s.transfer with
    | none => .error (.emission (.noNeighbor p (roles.getD p .uni) s.neighbor))
    | some l =>
      match moved? capacity (c.load l) s.transfer with
      | none => .ok { c with todo := c.todo.setIfInBounds p (s :: rest) }
      | some words =>
        let left := { s with words := s.words - 1 } :: rest
        .ok { c.setLoad l words with todo := c.todo.setIfInBounds p left }

/-- One turn of every partition. -/
def round (capacity : Nat) (roles : List Role) (c : Chain) : Except Error Chain :=
  (List.range c.todo.size).foldlM (turn capacity roles) c

/-- Words that are still to be sent or received. -/
def remaining (c : Chain) : Nat :=
  c.todo.foldl (fun words steps => steps.foldl (fun words s => words + s.words) words) 0

/-- The partitions with a step to do. -/
def stuck (c : Chain) : List StuckPartition :=
  c.todo.toList.zipIdx.filterMap fun (steps, p) =>
    steps.head?.map fun s => ⟨p, s.transfer, s.neighbor, s.words⟩

/-- Runs rounds until no words remain, from a chain with `words` of them. A round that moves a word
leaves fewer. -/
def run (capacity : Nat) (roles : List Role) (c : Chain) (words rounds : Nat) : Except Error Nat :=
  match round capacity roles c with
  | .error e => .error e
  | .ok d =>
    let left := d.remaining
    if left = 0 then .ok (rounds + 1)
    else if left < words then run capacity roles d left (rounds + 1)
    else .error (.emission (.deadlock (rounds + 1) d.stuck))
termination_by words

end Chain

/-- The number of rounds in which a chain of partitions completes its exchange. -/
def checkProgress (protocols : List ExchangeProtocol) (capacity : Nat) : Except Error Nat :=
  let c := Chain.start protocols
  if protocols.length < 2 ∨ c.todo.toList.all (·.isEmpty) then .ok 0
  else c.run capacity (protocols.map (·.role)) c.remaining 0

end GridSweep.Exchange
