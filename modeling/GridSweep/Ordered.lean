/-!
# Ordered sets and maps

Finite sets and maps as lists in ascending order without repetition. Sets of offsets, rows and names
are small, and their order shows in everything that is generated from them.

`insert` and `alter` keep the order.
-/

namespace GridSweep.Ordered

/-- The value at a key. -/
def get? {α β : Type} [DecidableEq α] (k : α) (m : List (α × β)) : Option β := m.lookup k

variable {α β : Type} [LT α] [DecidableLT α] [DecidableEq α]

/-- Adds an element to an ordered set. -/
def insert (a : α) : List α → List α
  | [] => [a]
  | b :: bs => if a < b then a :: b :: bs else if a = b then b :: bs else b :: insert a bs

/-- The ordered set of the elements of a list. -/
def ofList (as : List α) : List α := as.foldl (fun s a => insert a s) []

/-- Sets the value at a key, given the value it had. -/
def alter (k : α) (f : Option β → β) : List (α × β) → List (α × β)
  | [] => [(k, f none)]
  | (a, b) :: m =>
    if k < a then (k, f none) :: (a, b) :: m
    else if k = a then (a, f (some b)) :: m
    else (a, b) :: alter k f m

def put (k : α) (b : β) (m : List (α × β)) : List (α × β) := alter k (fun _ => b) m

theorem mem_insert {a x : α} {s : List α} : x ∈ insert a s ↔ x = a ∨ x ∈ s := by
  induction s with
  | nil => simp [insert]
  | cons b bs ih =>
    simp only [insert]
    split
    · simp
    · split
      · simp_all
      · simp [ih]
        grind

theorem mem_ofList {x : α} {as : List α} : x ∈ ofList as ↔ x ∈ as := by
  suffices h : ∀ s, x ∈ as.foldl (fun s a => insert a s) s ↔ x ∈ as ∨ x ∈ s by
    simpa [ofList] using h []
  induction as with
  | nil => simp
  | cons a as ih =>
    intro s
    simp only [List.foldl_cons, ih, mem_insert, List.mem_cons]
    grind

end GridSweep.Ordered
