import GridSweep.Number.Word

/-!
# Partition roles

The grid is split into horizontal bands, one per partition. A band's role says which neighbours it
has: none to talk to, only below, both, or only above.
-/

namespace GridSweep

inductive Role where
  | uni
  | up
  | mid
  | down
deriving DecidableEq, Repr

namespace Role

def name : Role → String
  | uni => "Uni"
  | up => "Up"
  | mid => "Mid"
  | down => "Down"

/-- The name of the kernel generated for a role. -/
def kernelName : Role → String
  | uni => "unikernel"
  | up => "upkernel"
  | mid => "midkernel"
  | down => "downkernel"

/-- The role of every partition from top to bottom. A single band or a single sweep exchanges
nothing. -/
def assign (partitions sweeps : Nat) : List Role :=
  if partitions ≤ 1 ∨ sweeps ≤ 1 then List.replicate (max partitions 1) uni
  else up :: (List.replicate (partitions - 2) mid ++ [down])

/-- The roles of all partitions if memory can hold them, at one byte each. -/
def assign? (partitions sweeps : Nat) : Option (List Role) :=
  if Capacity.holds (max partitions 1) 1 then some (assign partitions sweeps) else none

/-- The roles that need a kernel, in order of first use. -/
def distinct (partitions sweeps : Nat) : List Role :=
  (assign partitions sweeps).foldl (fun seen r => if r ∈ seen then seen else seen ++ [r]) []

theorem length_assign (partitions sweeps : Nat) :
    (assign partitions sweeps).length = max partitions 1 := by
  unfold assign
  split
  · simp
  · simp
    omega

end Role

inductive Neighbor where
  | above
  | below
deriving DecidableEq, Repr

inductive Transfer where
  | send
  | receive
deriving DecidableEq, Repr

def Neighbor.name : Neighbor → String
  | above => "Above"
  | below => "Below"

def Transfer.name : Transfer → String
  | send => "Send"
  | receive => "Receive"

end GridSweep
