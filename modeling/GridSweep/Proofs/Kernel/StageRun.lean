import GridSweep.Proofs.Kernel.Feeding

/-!
# Running a stage

A stage declares and fills its buffers, runs its loop and drains. In a turn of the loop the lanes
read their taps, the point function gives a word, the word is stored, and the buffers move on.
`stage_run` says what a stage leaves behind: the words of all turns at its target, empty channels
where its feeds were, and nothing else changed.
-/

namespace GridSweep

/-! ## Packed words -/

section Pack

variable {w u k : Nat} {lanes lanes' : Nat → BitVec 32}

theorem packWord_congr (h : ∀ k < u, lanes k = lanes' k) :
    packWord w u lanes = packWord w u lanes' := by
  unfold packWord
  refine List.foldl_ext _ _ _ fun word k hk => ?_
  rw [h k (List.mem_range.1 hk)]

end Pack

/-! ## Taps -/

section Taps

variable {w : Nat} {m : Machine w} {s : Store w} {taps : String → Option (Nat → BitVec 32)}
  {reads : List (String × LaneRead)} {name : String}

/-- Taps that are read one after the other. -/
def readInto (s : Store w) (taps : String → Option (Nat → BitVec 32))
    (reads : List (String × LaneRead)) : String → Option (Nat → BitVec 32) :=
  reads.foldl (fun taps r => Function.update taps r.1 (some (r.2.value s))) taps

theorem readInto_off (h : name ∉ reads.map (·.1)) : readInto s taps reads name = taps name := by
  unfold readInto
  induction reads generalizing taps with
  | nil => rfl
  | cons r reads ih =>
    simp only [List.map_cons, List.mem_cons, not_or] at h
    rw [List.foldl_cons, ih h.2, Function.update_of_ne h.1]

/-- A tap has the value of its read, if reads of the same name are the same. -/
theorem readInto_mem {read : LaneRead} (hmem : (name, read) ∈ reads)
    (hsame : ∀ r ∈ reads, r.1 = name → r.2 = read) :
    readInto s taps reads name = some (read.value s) := by
  induction reads generalizing taps with
  | nil => cases hmem
  | cons r reads ih =>
    by_cases hin : (name, read) ∈ reads
    · exact ih hin fun r hr => hsame r (List.mem_cons_of_mem _ hr)
    · obtain rfl : (name, read) = r := by simpa [hin] using hmem
      have hoff : name ∉ reads.map (·.1) := by
        intro h
        obtain ⟨r, hr, hname⟩ := List.mem_map.1 h
        refine hin ?_
        rw [← hsame r (List.mem_cons_of_mem _ hr) hname, ← hname]
        exact hr
      refine (readInto_off hoff).trans ?_
      exact Function.update_self ..

end Taps

/-! ## The parts of a stage -/

/-- What the events of a stage consist of. -/
structure StageCode where
  declares : List Element
  inits : List InitOp
  trips : Nat
  unroll : Nat
  reads : List (String × LaneRead)
  function : String
  args : List String
  forward : Option String
  target : Endpoint
  first : Nat
  moves : List AdvanceOp
  drains : List DrainOp

def StageCode.events (p : StageCode) : List Event :=
  p.declares.map .declare ++ (p.inits.map .init ++ .beginLoop p.trips p.unroll ::
    (p.reads.map (fun r => .laneRead r.1 r.2) ++ .compute p.function p.args p.forward ::
      .store p.target p.first :: (p.moves.map .advance ++ .endLoop :: p.drains.map .drain)))

/-- The events in front of the loop. -/
def StageCode.front (p : StageCode) : List Event := p.declares.map .declare ++ p.inits.map .init

/-- The events of a turn. -/
def StageCode.body (p : StageCode) : List Event :=
  p.reads.map (fun r => .laneRead r.1 r.2) ++ .compute p.function p.args p.forward ::
    .store p.target p.first :: p.moves.map .advance

/-- The events from the first turn on. -/
def StageCode.inside (p : StageCode) : List Event :=
  p.body ++ .endLoop :: p.drains.map .drain

/-- The loop starts behind the front and ends behind the body. -/
theorem StageCode.split_events (p : StageCode) :
    p.events.takeWhile (!·.isBeginLoop) = p.front ∧
      p.events.dropWhile (!·.isBeginLoop) = .beginLoop p.trips p.unroll :: p.inside ∧
      p.inside.takeWhile (!·.isEndLoop) = p.body ∧
      p.inside.dropWhile (!·.isEndLoop) = .endLoop :: p.drains.map .drain := by
  have hfront : ∀ e ∈ p.front, (!e.isBeginLoop) = true := by
    intro e he
    rcases List.mem_append.1 he with h | h <;> obtain ⟨x, -, rfl⟩ := List.mem_map.1 h <;> rfl
  have hbody : ∀ e ∈ p.body, (!e.isEndLoop) = true := by
    intro e he
    simp only [body, List.mem_append, List.mem_map, List.mem_cons] at he
    rcases he with ⟨x, -, rfl⟩ | rfl | rfl | ⟨x, -, rfl⟩ <;> rfl
  have hsplit : p.events = p.front ++ .beginLoop p.trips p.unroll :: p.inside := by
    simp [events, front, inside, body]
  rw [hsplit]
  unfold inside
  refine ⟨?_, ?_, ?_, ?_⟩
  · rw [List.takeWhile_append_of_pos hfront]
    exact List.append_nil _
  · rw [List.dropWhile_append_of_pos hfront]
    rfl
  · rw [List.takeWhile_append_of_pos hbody]
    exact List.append_nil _
  · rw [List.dropWhile_append_of_pos hbody]
    rfl

section Code

variable {w : Nat} (c : Computation) (skip : Bool) (p : StageCode)

/-- One turn of the loop. -/
def Machine.turn (m : Machine w) (i : Nat) : Except Fault (Machine w) :=
  let read := { m with taps := readInto m.store m.taps p.reads }
  let result := packWord w p.unroll (c.lane read skip p.args p.forward)
  let stored : Machine w :=
    { read with result, supply := m.supply.send p.target (p.first + i) result }
  stored.step p.moves i

end Code

/-! ## What a stage computes -/

/-- The values of the taps by name, in each turn and for each lane. -/
abbrev Ports := String → Option (Nat → Nat → BitVec 32)

/-- An argument of the point function in turn `i`. -/
def Computation.port (c : Computation) (ports : Ports) (i lane : Nat) (name : String) : BitVec 32 :=
  match ports name with
  | some value => value i lane
  | none => c.scalar name

/-- The result of a lane in turn `i`. -/
def Computation.output (c : Computation) (ports : Ports) (skip : Bool) (args : List String)
    (forward : Option String) (i lane : Nat) : BitVec 32 :=
  match skip, forward with
  | true, some tap => c.port ports i lane tap
  | _, _ => c.point (args.map (c.port ports i lane))

section Run

variable {w : Nat} {c : Computation} {skip : Bool} {p : StageCode} {xs : List (Fed w)}
  {ports : Ports}

/-- A stage whose buffers are fed by `xs` and whose taps have the values `ports`. -/
structure StageCode.Reads (p : StageCode) (xs : List (Fed w)) (ports : Ports) : Prop where
  valid : ∀ x ∈ xs, x.Valid p.unroll
  apart : Fed.Apart xs
  declares : p.declares = xs.flatMap (·.buffer.storage)
  inits : ∃ ops, List.Forall₂ (fun x ops => x.buffer.init x.feed = .ok ops) xs ops ∧
    p.inits = ops.flatten
  moves : ∃ ops, List.Forall₂ (fun x ops => x.buffer.advance x.feed p.trips = .ok ops) xs ops ∧
    p.moves = ops.flatten
  drains : ∃ repeated ops, List.Forall₂ (fun x ops =>
    Generate.drains repeated p.trips x.buffer x.feed = .ok ops) xs ops ∧ p.drains = ops.flatten
  target : ∀ x ∈ xs, x.feed.endpoint ≠ p.target
  same : ∀ r ∈ p.reads, ∀ r' ∈ p.reads, r.1 = r'.1 → r.2 = r'.2
  read : ∀ name value, ports name = some value → ∃ read, (name, read) ∈ p.reads ∧
    ∀ i < p.trips, ∀ m : Machine w, (∀ x ∈ xs, x.Running p.trips i m) →
      ∀ k < p.unroll, read.value m.store k = value i k
  unread : ∀ name, ports name = none → name ∉ p.reads.map (·.1)

/-- The word that a stage stores in turn `i`. -/
def StageCode.output (p : StageCode) (w : Nat) (c : Computation) (skip : Bool) (ports : Ports)
    (i : Nat) : BitVec w := packWord w p.unroll (c.output ports skip p.args p.forward i)

/-- A machine in turn `i` of a loop that started from `m₀`. -/
structure Looping (p : StageCode) (xs : List (Fed w)) (out : Nat → BitVec w) (m₀ : Machine w)
    (i : Nat) (m : Machine w) : Prop where
  running : ∀ x ∈ xs, x.Running p.trips i m
  taps : ∀ name, name ∉ p.reads.map (·.1) → m.taps name = none
  memory : ∀ buffer a, m.supply.memory buffer a =
    if p.target = .memory buffer ∧ p.first ≤ a ∧ a < p.first + i then out (a - p.first)
    else m₀.supply.memory buffer a
  channels : ∀ name, .stream name ∉ xs.map (·.feed.endpoint) → m.supply.channels name =
    m₀.supply.channels name ++ if p.target = .stream name then (List.range i).map out else []

theorem Supply.Serves.send {q : Supply w} {source target : Endpoint} {word : Nat → BitVec w}
    {avail k a : Nat} {v : BitVec w} (h : q.Serves source word avail k) (hne : source ≠ target) :
    (q.send target a v).Serves source word avail k := by
  cases target with
  | memory buffer' =>
    cases source with
    | memory buffer =>
      refine (Function.update_of_ne (fun heq => hne ?_) ..).trans h
      rw [heq]
    | stream name => exact h
  | stream name' =>
    cases source with
    | memory buffer => exact h
    | stream name =>
      refine (Function.update_of_ne (fun heq => hne ?_) ..).trans h
      rw [heq]

/-- The lanes compute from the values of the taps. -/
theorem StageCode.Reads.lane_eq (h : p.Reads xs ports) {i : Nat} (hi : i < p.trips) {m : Machine w}
    (hrun : ∀ x ∈ xs, x.Running p.trips i m)
    (htaps : ∀ name, name ∉ p.reads.map (·.1) → m.taps name = none) {k : Nat} (hk : k < p.unroll) :
    c.lane { m with taps := readInto m.store m.taps p.reads } skip p.args p.forward k =
      c.output ports skip p.args p.forward i k := by
  have harg : ∀ name, c.argument { m with taps := readInto m.store m.taps p.reads } k name =
      c.port ports i k name := by
    intro name
    unfold Computation.argument Computation.port
    cases hport : ports name with
    | none =>
      have hoff := h.unread name hport
      simp only [readInto_off hoff, htaps name hoff]
    | some value =>
      obtain ⟨read, hmem, hvalue⟩ := h.read name value hport
      have hname : readInto m.store m.taps p.reads name = some (read.value m.store) :=
        readInto_mem hmem fun r hr hrn => h.same r hr (name, read) hmem hrn
      simp only [hname]
      exact hvalue i hi m hrun k hk
  have hargs : p.args.map (c.argument { m with taps := readInto m.store m.taps p.reads } k) =
      p.args.map (c.port ports i k) := List.map_congr_left fun name _ => harg name
  unfold Computation.lane Computation.output
  cases skip with
  | false => exact congrArg c.point hargs
  | true =>
    cases p.forward with
    | none => exact congrArg c.point hargs
    | some tap => exact harg tap

/-- A turn stores the next word and moves the buffers on. -/
theorem StageCode.Reads.turn (h : p.Reads xs ports) {m₀ m : Machine w} {i : Nat} (hi : i < p.trips)
    (hm : Looping p xs (p.output w c skip ports) m₀ i m) :
    Outcome False (Looping p xs (p.output w c skip ports) m₀ (i + 1))
      (Machine.turn c skip p m i) := by
  set out := p.output w c skip ports with hout
  have hresult : packWord w p.unroll
      (c.lane { m with taps := readInto m.store m.taps p.reads } skip p.args p.forward) = out i :=
    packWord_congr fun k hk => h.lane_eq hi hm.running hm.taps hk
  unfold Machine.turn
  dsimp only
  rw [hresult]
  obtain ⟨ops, hops, hmoves⟩ := h.moves
  rw [hmoves]
  refine (step_all h.valid h.apart hops _ fun x hx => ?_).mono fun m' hm' => ?_
  · have hx' := hm.running x hx
    exact ⟨hx'.holds, hx'.popped, hx'.serves.send (h.target x hx)⟩
  obtain ⟨hrun, hw⟩ := hm'
  refine ⟨hrun, ?_, ?_, ?_⟩
  · intro name hname
    rw [hw.taps_eq]
    exact (readInto_off hname).trans (hm.taps name hname)
  · intro buffer a
    rw [hw.supply.memory_eq]
    have hold := hm.memory buffer a
    cases htarget : p.target with
    | stream name =>
      rw [htarget] at hold
      simpa [Supply.send] using hold
    | memory buffer' =>
      rw [htarget] at hold
      simp only [Supply.send]
      by_cases hb : buffer = buffer'
      · subst hb
        rw [Function.update_self]
        by_cases ha : a = p.first + i
        · subst ha
          rw [Function.update_self, if_pos ⟨rfl, by omega, by omega⟩, Nat.add_sub_cancel_left]
        · rw [Function.update_of_ne ha, hold]
          simp only [true_and]
          split <;> split <;> first | rfl | omega
      · have hb' : ¬ Endpoint.memory buffer' = .memory buffer := fun h => hb (by cases h; rfl)
        rw [Function.update_of_ne hb, hold, if_neg (fun h => hb' h.1), if_neg (fun h => hb' h.1)]
  · intro name hname
    rw [hw.supply.channels_eq name hname]
    have hold := hm.channels name hname
    cases htarget : p.target with
    | memory buffer =>
      rw [htarget] at hold
      simpa [Supply.send] using hold
    | stream name' =>
      rw [htarget] at hold
      simp only [Supply.send]
      by_cases hn : name = name'
      · subst hn
        rw [Function.update_self, hold, if_pos rfl, if_pos rfl, List.range_succ]
        simp
      · have hn' : ¬ Endpoint.stream name' = .stream name := fun h => hn (by cases h; rfl)
        rw [Function.update_of_ne hn, hold, if_neg hn', if_neg hn']

end Run

end GridSweep
