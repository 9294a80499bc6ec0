import GridSweep.Proofs.Pipeline

/-!
# Every pass runs once

The sweeps of a schedule run all passes in order, none twice and none left out: only the last sweep
has stages to skip, and they are at its end. The buffers change places from sweep to sweep, so a
sweep reads what the one before it wrote.

This needs a number of stages that is a 32-bit word. `passes_of_wide_plan` has one more stage than
there are words, and runs a pass twice.
-/

namespace GridSweep

/-- The passes of the stages that do not skip. -/
def Sweep.passes (sw : Sweep) : List Nat :=
  sw.skips.zipIdx.filterMap fun p => if p.1 then none else some (sw.firstPass + p.2)

namespace Schedule

variable {iterations i : Nat} {plan : Plan} {a b : String} {sw : Sweep}

/-! ## Passes -/

theorem filterMap_passes (firstPass run skipped start : Nat) :
    ((List.replicate run false ++ List.replicate skipped true).zipIdx start).filterMap
        (fun p => if p.1 then none else some (firstPass + p.2)) =
      List.range' (firstPass + start) run := by
  induction run generalizing start with
  | zero =>
    refine List.filterMap_eq_nil_iff.2 fun p hp => ?_
    have hskip := (List.mem_zipIdx hp).2.2
    simp only [List.replicate_zero, List.nil_append, List.getElem_replicate] at hskip
    rw [if_pos hskip]
  | succ run ih =>
    simp [List.replicate_succ, List.zipIdx_cons, List.range'_succ, ih, Nat.add_assoc]

/-- The stages that run come first. -/
theorem skips_eq (plan : Plan) (firstPass iterations : Nat) :
    plan.naturalSkips firstPass iterations =
      List.replicate (min plan.stageCount (iterations - firstPass)) false ++
        List.replicate (plan.stageCount - (iterations - firstPass)) true := by
  refine List.ext_getElem (by simp [Plan.naturalSkips]; omega) fun s hs _ => ?_
  simp only [Plan.naturalSkips, List.length_map, List.length_range] at hs
  rw [List.getElem_append]
  simp only [Plan.naturalSkips, List.getElem_map, List.getElem_range, List.length_replicate,
    List.getElem_replicate, dite_eq_ite]
  split
  · exact decide_eq_false (by omega)
  · exact decide_eq_true (by omega)

theorem passes_sweep (hstages : 0 < plan.stageCount) (i : Nat) :
    (naturalSweep iterations plan a b i).passes = List.range' (i * plan.stageCount)
      (min plan.stageCount (iterations - i * plan.stageCount)) := by
  simp only [Sweep.passes, naturalSweep, Nat.max_eq_left hstages, skips_eq]
  exact filterMap_passes ..

/-- The first `n` sweeps run the passes that they have room for. -/
theorem passes_range (hstages : 0 < plan.stageCount) (n : Nat) :
    ((List.range n).map (naturalSweep iterations plan a b)).flatMap Sweep.passes =
      List.range (min iterations (n * plan.stageCount)) := by
  induction n with
  | zero => simp
  | succ n ih =>
    rw [List.range_succ, List.map_append, List.flatMap_append, ih]
    simp only [List.map_cons, List.map_nil, List.flatMap_cons, List.flatMap_nil, List.append_nil,
      passes_sweep hstages, Nat.succ_mul]
    rcases Nat.le_total iterations (n * plan.stageCount) with hle | hle
    · rw [Nat.sub_eq_zero_of_le hle, Nat.min_zero, List.range'_zero, List.append_nil,
        Nat.min_eq_left hle, Nat.min_eq_left (Nat.le_add_right_of_le hle)]
    · rw [Nat.min_eq_right hle, List.range_eq_range', List.range_eq_range']
      have happend := @List.range'_append_1 0 (n * plan.stageCount)
        (min plan.stageCount (iterations - n * plan.stageCount))
      rw [Nat.zero_add] at happend
      rw [happend]
      congr 1
      omega

/-! ## Buffers -/

theorem mem_sweeps : sw ∈ (natural iterations plan a b).sweeps ↔
    ∃ i < sweepCount iterations plan.stageCount, naturalSweep iterations plan a b i = sw := by
  simp [natural]

theorem eq_sweep_of_getElem? (h : (natural iterations plan a b).sweeps[i]? = some sw) :
    sw = naturalSweep iterations plan a b i := by
  simp only [natural, List.getElem?_map, Option.map_eq_some_iff] at h
  obtain ⟨j, hj, rfl⟩ := h
  obtain ⟨hi, rfl⟩ := List.getElem?_eq_some_iff.1 hj
  rw [List.getElem_range]

theorem reads_writes (i : Nat) :
    (naturalSweep iterations plan a b i).reads = (if i % 2 = 1 then b else a) ∧
      (naturalSweep iterations plan a b i).writes = if i % 2 = 1 then a else b := by
  simp [naturalSweep]

/-- What a schedule over the buffers `a` and `b` does: it runs all passes in order, each once, and
hands the grid from buffer to buffer. -/
structure RunsAll (s : Schedule) (iterations stages : Nat) (a b : String) : Prop where
  passes : s.sweeps.flatMap Sweep.passes = List.range iterations
  /-- The stages that skip are at the end, and the first one runs. -/
  skips : ∀ sw ∈ s.sweeps, ∃ run skipped, 0 < run ∧ run + skipped = stages ∧
    sw.skips = List.replicate run false ++ List.replicate skipped true
  first : ∃ sw, s.sweeps.head? = some sw ∧ sw.reads = a
  next : ∀ (i : Nat) (sw sw' : Sweep), s.sweeps[i]? = some sw → s.sweeps[i + 1]? = some sw' →
    sw'.reads = sw.writes
  other : ∀ sw ∈ s.sweeps, (sw.reads = a ∧ sw.writes = b) ∨ (sw.reads = b ∧ sw.writes = a)
  last : ∃ sw, s.sweeps.getLast? = some sw ∧ s.resultBuffer = sw.writes
  result : s.resultBuffer = if s.sweeps.length % 2 = 0 then a else b
  result_iff : a ≠ b → (s.resultBuffer = a ↔ s.sweeps.length % 2 = 0)

/-- In every sweep there is a pass left to run. -/
theorem mul_lt_iterations (hiterations : 0 < iterations) (hstages : 0 < plan.stageCount)
    (hi : i < sweepCount iterations plan.stageCount) : i * plan.stageCount < iterations := by
  cases i with
  | zero => rwa [Nat.zero_mul]
  | succ i => exact succ_mul_lt_iterations hstages hi

theorem resultBuffer_eq : (natural iterations plan a b).resultBuffer =
    if (natural iterations plan a b).sweeps.length % 2 = 0 then a else b := by
  obtain ⟨m, hm⟩ := Nat.exists_eq_add_of_lt (sweepCount_pos iterations plan.stageCount)
  rw [Nat.zero_add] at hm
  have hlength : (natural iterations plan a b).sweeps.length = m + 1 := by simp [natural, hm]
  rw [resultBuffer_natural m hm, (reads_writes m).2, hlength]
  rcases Nat.mod_two_eq_zero_or_one m with hparity | hparity
  · rw [if_neg (by omega), if_neg (by omega)]
  · rw [if_pos hparity, if_pos (by omega)]

theorem runsAll_natural (hiterations : 0 < iterations) (hstages : 0 < plan.stageCount) :
    (natural iterations plan a b).RunsAll iterations plan.stageCount a b := by
  obtain ⟨m, hm⟩ := Nat.exists_eq_add_of_lt (sweepCount_pos iterations plan.stageCount)
  rw [Nat.zero_add] at hm
  refine ⟨?_, fun sw hsw => ?_, ⟨naturalSweep iterations plan a b 0, ?_, rfl⟩,
    fun i sw sw' hsw hsw' => ?_, fun sw hsw => ?_,
    ⟨naturalSweep iterations plan a b m, ?_, resultBuffer_natural m hm⟩, resultBuffer_eq,
    fun hne => ?_⟩
  · rw [natural, passes_range hstages, Nat.min_eq_left (le_sweepCount_mul iterations hstages)]
  · obtain ⟨i, hi, rfl⟩ := mem_sweeps.1 hsw
    have hlt := mul_lt_iterations hiterations hstages hi
    refine ⟨_, _, ?_, ?_, by rw [naturalSweep, Nat.max_eq_left hstages]; exact skips_eq ..⟩
    · omega
    · omega
  · simp [natural, hm, List.range_succ_eq_map]
  · rw [eq_sweep_of_getElem? hsw, eq_sweep_of_getElem? hsw']
    exact reads_succ i
  · obtain ⟨i, -, rfl⟩ := mem_sweeps.1 hsw
    obtain ⟨hreads, hwrites⟩ := @reads_writes iterations plan a b i
    rw [hreads, hwrites]
    split
    · exact .inr ⟨rfl, rfl⟩
    · exact .inl ⟨rfl, rfl⟩
  · simp [natural, hm, List.range_succ]
  · rw [resultBuffer_eq]
    split
    · next heven => exact iff_of_true rfl heven
    · next hodd => exact iff_of_false hne.symm hodd

end Schedule

/-- A schedule is made without a number that does not fit its word, runs every pass once, and ends
in the buffer that its last sweep wrote. -/
theorem Schedule.runs_every_pass (iterations : BitVec 32) (plan : Plan) (a b : String)
    (hiterations : 1 ≤ iterations.toNat) (hstages : 1 ≤ plan.stageCount)
    (hlimit : plan.stageCount ≤ 2 ^ 32 - 1) :
    Schedule.create iterations plan a b = .ok (Schedule.natural iterations.toNat plan a b) ∧
      (Schedule.natural iterations.toNat plan a b).RunsAll iterations.toNat plan.stageCount a b :=
  ⟨Schedule.create_eq_natural hstages (by omega), Schedule.runsAll_natural hiterations hstages⟩

/-- As many passes as a word can count, and half as many stages: the last pass is alone in the last
of three sweeps. -/
theorem Schedule.largest_word_of_passes :
    let plan : Plan := ⟨2 ^ 31 - 1, 8, ⟨1, 1⟩, []⟩
    Schedule.create (.allOnes 32) plan "a" "b" =
        .ok (Schedule.natural (2 ^ 32 - 1) plan "a" "b") ∧
      (Schedule.natural (2 ^ 32 - 1) plan "a" "b").RunsAll (2 ^ 32 - 1) (2 ^ 31 - 1) "a" "b" :=
  Schedule.runs_every_pass (.allOnes 32) ⟨2 ^ 31 - 1, 8, ⟨1, 1⟩, []⟩ "a" "b" (by decide) (by decide)
    (by decide)

/-! ## More stages than a word can count -/

namespace Schedule

variable {plan : Plan}

theorem passes_of_skips {sw : Sweep} {firstPass iterations : Nat}
    (hfirst : sw.firstPass = firstPass)
    (hskips : sw.skips = plan.naturalSkips firstPass iterations) :
    sw.passes = List.range' firstPass (min plan.stageCount (iterations - firstPass)) := by
  rw [Sweep.passes, hskips, skips_eq, hfirst]
  exact filterMap_passes ..

/-- What is left of `2 ^ 32 + 1` stages in a word is one stage: of two passes the second one is run
by the first sweep and again by the second. -/
theorem passes_of_wide_plan (hwide : plan.stageCount = 2 ^ 32 + 1) (a b : String) :
    ∃ s, create 2 plan a b = .ok s ∧ s.sweeps.flatMap Sweep.passes = [0, 1, 1] := by
  have hstages : BitVec.ofNat 32 (max plan.stageCount 1) = 1 := by
    rw [hwide]
    rfl
  have hsweep (i : BitVec 32) : ∃ sw, sweep 2 1 plan a b i = .ok sw ∧ sw.firstPass = i.toNat ∧
      sw.skips = plan.naturalSkips i.toNat 2 := by
    have hmul : Words.mul i 1 = .ok i := by simp [Words.mul, BitVec.umulOverflow, i.isLt]
    have hskips : plan.skips i 2 = .ok (plan.naturalSkips i.toNat 2) :=
      skips_eq_natural (by omega) i
    unfold sweep
    simp only [hmul, ok_bind, hskips]
    exact ⟨_, rfl, rfl, rfl⟩
  obtain ⟨sw, hsw, hfirst, hskips⟩ := hsweep 0
  obtain ⟨sw', hsw', hfirst', hskips'⟩ := hsweep 1
  refine ⟨⟨2, plan.stageCount, [sw, sw']⟩, ?_, ?_⟩
  · have hcount : Words.ceilDiv (2 : BitVec 32) 1 = .ok 2 := by decide
    have hpair : (List.range 2).mapM (fun i => sweep 2 1 plan a b (BitVec.ofNat 32 i)) =
        .ok [sw, sw'] := mapM_eq_ok_iff.2 (.cons hsw (.cons hsw' .nil))
    simp only [create, hstages, hcount, ok_bind]
    rw [show (if (2 : BitVec 32) = 0 then 1 else 2 : BitVec 32).toNat = 2 from rfl, hpair]
    rfl
  · simp only [List.flatMap_cons, List.flatMap_nil, passes_of_skips hfirst hskips,
      passes_of_skips hfirst' hskips', hwide]
    decide

/-- Nothing is left of `2 ^ 32` stages, and passes are divided by zero. -/
theorem create_error_of_wide_plan (hwide : plan.stageCount = 2 ^ 32) (iterations : BitVec 32)
    (a b : String) : create iterations plan a b = .error (.limit .zeroDivisor) := by
  have hstages : BitVec.ofNat 32 (max plan.stageCount 1) = 0 := by
    rw [hwide]
    rfl
  unfold create
  rw [hstages]
  rfl

end Schedule

end GridSweep
