import GridSweep.Proofs.LineBuffer.Stepping

/-!
# The words that a line buffer takes

Every operation on a feed says which words it takes. A memory is read at these positions; a stream
gives its words in order, whatever the positions say, so the two agree only if the positions count
up from zero. Filling a buffer takes the words up to `firstWord`, every step takes the next one as
long as the feed has some, and the rest of a stream is thrown away. Over a stream this is every word
once (`stream_taken`).
-/

namespace GridSweep

/-- The words that an operation takes, by source and position. -/
def InitOp.taken : InitOp → List (Endpoint × Option Nat)
  | .discard source words => (List.range words).map fun i => (source, some i)
  | .load _ source address => [(source, some address)]
  | .fill _ source first count => (List.range' first count).map fun a => (source, some a)

/-- The words that an operation takes in a loop step. -/
def AdvanceOp.taken (step : Nat) : AdvanceOp → List (Endpoint × Option Nat)
  | .fetch _ source first validSteps =>
    if step < validSteps then [(source, some (first + step))] else []
  | .delay _ _ | .shift _ _ => []

/-- The words that an operation takes; those that are thrown away at the end have no position. -/
def DrainOp.taken : DrainOp → List (Endpoint × Option Nat)
  | .queue _ _ => []
  | .surplus source words => List.replicate words (source, none)

namespace LineBuffer

variable {b : LineBuffer} {feed : Feed} {source : Endpoint} {trips : Nat}

/-! ## Filling -/

theorem taken_loads (base : Nat) (row : Int) (k : Nat) :
    (b.loads source base row k).flatMap InitOp.taken =
      (List.range' base k).map fun a => (source, some a) := by
  unfold loads
  rw [List.flatMap_map, List.range'_eq_map_range, List.map_map, List.map_eq_flatMap]
  rfl

/-- Rows take the words of whole grid rows, and the last one those of its blocks. -/
theorem taken_rowInits {l : List (Int × Nat)} (hfit : ∀ p ∈ l, p.2 ≤ b.rowWords) (base : Nat) :
    (b.rowInits source base l).flatMap InitOp.taken =
      (List.range' base (span b.rowWords l)).map fun a => (source, some a) := by
  induction l generalizing base with
  | nil => rfl
  | cons p l ih =>
    obtain ⟨row, k⟩ := p
    cases l with
    | nil => exact taken_loads base row k
    | cons next below =>
      have hk : k ≤ b.rowWords := hfit (row, k) List.mem_cons_self
      have hrest := ih (fun p hp => hfit p (List.mem_cons_of_mem _ hp)) (base + b.rowWords)
      simp only [rowInits, span, List.flatMap_append, List.flatMap_cons, taken_loads, hrest,
        InitOp.taken, ← List.map_append]
      rw [← List.append_assoc, List.range'_append_1, Nat.add_sub_cancel' hk, List.range'_append_1]

/-- The position of the first word that is taken. A stream also gives those above the window. -/
def startWord (b : LineBuffer) (feed : Feed) : Nat :=
  if feed.endpoint.isStream then 0 else b.rowStart feed b.topRow

/-- The words that fill a buffer. -/
def filled (b : LineBuffer) (feed : Feed) : List (Endpoint × Option Nat) :=
  (List.range' (b.startWord feed) (b.firstWord feed - b.startWord feed)).map
    fun a => (feed.endpoint, some a)

theorem taken_init (hl : b.Laid) (hfit : b.RowsFit) {ops : List InitOp}
    (h : b.init feed = .ok ops) : ops.flatMap InitOp.taken = b.filled feed := by
  obtain ⟨h0, rfl⟩ := init_eq_ok hl h
  have hspan := hl.start_add_span h0
  rw [inits, List.flatMap_append, taken_rowInits hfit]
  unfold filled startWord discards
  cases hs : feed.endpoint.isStream with
  | false =>
    simp only [Bool.false_eq_true, false_and, if_false, List.flatMap_nil, List.nil_append]
    rw [← hspan, Nat.add_sub_cancel_left]
  | true =>
    simp only [true_and, if_true, Nat.sub_zero]
    have hdiscard : (if 0 < b.rowStart feed b.topRow then
        [InitOp.discard feed.endpoint (b.rowStart feed b.topRow)] else []).flatMap InitOp.taken =
          (List.range' 0 (b.rowStart feed b.topRow)).map fun a => (feed.endpoint, some a) := by
      rw [← List.range_eq_range']
      split
      · simp [InitOp.taken]
      · next hzero => rw [Nat.eq_zero_of_not_pos hzero]; rfl
    have hall : List.range' 0 (b.rowStart feed b.topRow) ++
        List.range' (0 + b.rowStart feed b.topRow) (span b.rowWords b.blockCount) = _ :=
      List.range'_append_1
    rw [Nat.zero_add, hspan] at hall
    rw [hdiscard, ← List.map_append, hall]

/-! ## Stepping -/

theorem taken_delays (i : Nat) : b.delays.flatMap (AdvanceOp.taken i) = [] := by
  refine List.flatMap_eq_nil_iff.2 fun op hop => ?_
  obtain ⟨p, -, hop⟩ := List.mem_flatMap.1 hop
  obtain ⟨j, -, rfl⟩ := List.mem_map.1 hop
  rfl

theorem taken_shifts (i : Nat) (flow : List Element) :
    (shifts flow).flatMap (AdvanceOp.taken i) = [] := by
  fun_induction shifts flow with
  | case1 target source rest ih => rw [List.flatMap_cons, ih]; rfl
  | case2 => rfl

/-- The word that step `i` takes, as long as there is one. -/
def fetched (b : LineBuffer) (feed : Feed) (trips i : Nat) : List (Endpoint × Option Nat) :=
  if i < b.validSteps feed trips then [(feed.endpoint, some (b.firstWord feed + i))] else []

theorem taken_advance (hl : b.Laid) {ops : List AdvanceOp} (h : b.advance feed trips = .ok ops)
    (i : Nat) : ops.flatMap (AdvanceOp.taken i) = b.fetched feed trips i := by
  obtain ⟨-, last, -, rfl⟩ := hl.advance_eq_ok h
  rw [List.flatMap_append, List.flatMap_append, taken_delays, taken_shifts, List.flatMap_singleton]
  rfl

/-- What is consumed are the words of the filling and of the steps. -/
theorem consumed_eq (hfirst : b.firstFetch feed = .ok (b.firstWord feed)) :
    b.consumed feed trips = .ok (b.firstWord feed + b.validSteps feed trips) := by
  unfold consumed
  rw [hfirst, ok_bind, validSteps]
  simp only [pure_eq_ok, Except.ok.injEq]
  omega

theorem consumed_eq_ok {words : Nat} (h : b.consumed feed trips = .ok words) :
    words = b.firstWord feed + b.validSteps feed trips := by
  obtain ⟨first, hfirst, -⟩ := bind_eq_ok.1 h
  obtain rfl : first = b.firstWord feed := (address_eq_ok hfirst).1
  exact Except.ok.inj (h.symm.trans (consumed_eq hfirst))

/-! ## Over a whole stage -/

/-- The words of a stream that are left after the last step. -/
def leftover (b : LineBuffer) (feed : Feed) (trips : Nat) : List (Endpoint × Option Nat) :=
  if feed.endpoint.isStream then List.replicate
    (feed.words - (b.firstWord feed + b.validSteps feed trips)) (feed.endpoint, none) else []

theorem mem_filled {x : Endpoint × Option Nat} (h : x ∈ b.filled feed) :
    x.1 = feed.endpoint ∧ ∃ a < b.firstWord feed, x.2 = some a := by
  obtain ⟨a, ha, rfl⟩ := List.mem_map.1 h
  have hin := List.mem_range'_1.1 ha
  exact ⟨rfl, a, by omega, rfl⟩

theorem mem_fetched {x : Endpoint × Option Nat} {i : Nat} (h : x ∈ b.fetched feed trips i) :
    x.1 = feed.endpoint ∧ ∃ a < feed.words, x.2 = some a := by
  unfold fetched validSteps at h
  split at h
  · next hi =>
    rw [List.mem_singleton.1 h]
    exact ⟨rfl, _, by omega, rfl⟩
  · cases h

theorem mem_leftover {x : Endpoint × Option Nat} (h : x ∈ b.leftover feed trips) :
    x.1 = feed.endpoint ∧ feed.endpoint.isStream := by
  unfold leftover at h
  split at h
  · next hs => exact ⟨congrArg Prod.fst (List.eq_of_mem_replicate h), hs⟩
  · cases h

theorem flatMap_range_ite {α : Type} (f : Nat → α) {k n : Nat} (h : k ≤ n) :
    ((List.range n).flatMap fun i => if i < k then [f i] else []) = (List.range k).map f := by
  obtain ⟨j, rfl⟩ := Nat.exists_eq_add_of_le h
  rw [List.range_add, List.flatMap_append, List.flatMap_map, List.map_eq_flatMap]
  have hlate : ((List.range j).flatMap fun i => if k + i < k then [f (k + i)] else []) = [] :=
    List.flatMap_eq_nil_iff.2 fun i _ => if_neg (by omega)
  rw [hlate, List.append_nil]
  exact List.flatMap_congr fun i hi => if_pos (List.mem_range.1 hi)

/-- A stream gives every word once and in order: those that are consumed, at their positions, and
then those that are left. -/
theorem stream_taken (hs : feed.endpoint.isStream) :
    (b.filled feed).map (·.2) ++ (((List.range trips).flatMap fun i =>
        (b.fetched feed trips i).map (·.2)) ++ (b.leftover feed trips).map (·.2)) =
      (List.range (b.firstWord feed + b.validSteps feed trips)).map some ++
        List.replicate (feed.words - (b.firstWord feed + b.validSteps feed trips)) none := by
  have hfilled : (b.filled feed).map (·.2) = (List.range (b.firstWord feed)).map some := by
    unfold filled startWord
    rw [if_pos hs, List.map_map, Nat.sub_zero, ← List.range_eq_range']
    rfl
  have hfetched : ((List.range trips).flatMap fun i => (b.fetched feed trips i).map (·.2)) =
      (List.range (b.validSteps feed trips)).map fun i => some (b.firstWord feed + i) := by
    have hle : b.validSteps feed trips ≤ trips := Nat.min_le_left ..
    rw [← flatMap_range_ite _ hle]
    refine List.flatMap_congr fun i _ => ?_
    unfold fetched
    split <;> rfl
  have hleft : (b.leftover feed trips).map (·.2) =
      List.replicate (feed.words - (b.firstWord feed + b.validSteps feed trips)) none := by
    unfold leftover
    rw [if_pos hs, List.map_replicate]
  rw [hfilled, hfetched, hleft, ← List.append_assoc, List.range_add, List.map_append, List.map_map]
  rfl

end LineBuffer

end GridSweep
