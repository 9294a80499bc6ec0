import GridSweep.Proofs.Kernel.Accesses

/-!
# The channels between stages

A stage but the first takes the iterated variable from the stage before, over a channel. The channel
gives its words in order, and the stage takes them as if it read them at their positions: it throws
away the rows above its window, fills its line buffer, fetches a word per step, and throws away what
is left. Together it takes every word that the stage before has stored, and no other.
-/

namespace GridSweep

namespace Generate

variable {target : Accelerator} {s : Stencil} {forward : Option Forward}
  {m : List (String × LineBuffer)} {plan : Plan} {design : Design} {kernel : Kernel}
  {point : PointFunction} {stage : Stage} {b : LineBuffer} {n : Nat}

/-! ## The top row -/

/-- The lowest row is the top row of a buffer, unless it is the output row. -/
theorem low_ofBuffers (bs : List LineBuffer) : (RowBounds.ofBuffers bs).low = 0 ∨
    ∃ b ∈ bs, (RowBounds.ofBuffers bs).low = b.topRow := by
  unfold RowBounds.ofBuffers
  have hgen : ∀ (bs : List LineBuffer) (start : RowBounds),
      let r := bs.foldl (fun r b => ⟨min r.low b.topRow, max r.high b.bottomRow⟩) start
      r.low = start.low ∨ ∃ b ∈ bs, r.low = b.topRow := by
    intro bs
    induction bs with
    | nil => exact fun start => .inl rfl
    | cons b bs ih =>
      intro start
      rw [List.foldl_cons]
      rcases ih ⟨min start.low b.topRow, max start.high b.bottomRow⟩ with hlow | ⟨c, hc, hlow⟩
      · rcases min_choice start.low b.topRow with hmin | hmin
        · exact .inl (hlow.trans hmin)
        · exact .inr ⟨b, List.mem_cons_self, hlow.trans hmin⟩
      · exact .inr ⟨c, List.mem_cons_of_mem _ hc, hlow⟩
  exact hgen bs ⟨0, 0⟩

theorem ascending_buffers (h : buffers target s forward = .ok m) : Ascending m := by
  unfold buffers at h
  refine foldlM_preserves (fun m var m' hm hput => ?_) List.Pairwise.nil h
  obtain ⟨b, -, hput⟩ := bind_eq_ok.1 hput
  cases hput
  exact ascending_alter hm ..

theorem Built.mem_ordered (h : Built target s m plan design) {v : String} (hb : (v, b) ∈ m) :
    b ∈ ordered s m := by
  have hget := (ascending_buffers h.lineBuffers).get? hb
  have hv := ((get?_buffers h.lineBuffers v).2 b hget).1
  exact List.mem_filterMap.2 ⟨v, hv, hget⟩

/-- The first stage can be made only if the top halo is a 64-bit number: the buffer that reaches to
its top row has to be filled from there. -/
theorem Built.signed_top (h : Built target s m plan design) (hne : s.inputVars ≠ [])
    (hstage : Generate.stage target s plan point m (forward? target s) (rangeOf plan 0) =
      .ok stage) : Word64.signed plan.halo.top = plan.halo.top := by
  obtain ⟨-, -, -, hhalo⟩ := plan_of_create h.plan_eq
  rcases low_ofBuffers (m.map (·.2)) with hlow | ⟨b, hb, hlow⟩
  · simp only [hhalo, RowBounds.topHalo, hlow]
    rfl
  · obtain ⟨⟨v, b⟩, hmem, rfl⟩ := List.mem_map.1 hb
    obtain ⟨code, hcode⟩ := h.exists_code hne hstage
    obtain ⟨ops, hops⟩ := hcode.inits_ok b (h.mem_ordered hmem)
    have htop := LineBuffer.top_nonneg_of_init hops
    have hfeed : feedOf target s plan (rangeOf plan 0) b = ⟨.memory b.var, plan.halo.top * (0 + 1),
      plan.bufferRows * (s.gridCols / target.lanes)⟩ := feed_memory (.inl rfl)
    rw [hfeed, Nat.zero_add, Nat.mul_one] at htop
    have hrow : plan.halo.top = (-b.topRow).toNat := by
      simp only [hhalo, RowBounds.topHalo, hlow]
    unfold Word64.signed at htop ⊢
    omega

/-! ## What is taken -/

/-- What is taken from an endpoint is taken by the line buffer that is fed from it. -/
theorem CodeOf.taken_eq {range : StageRange} {code : StageCode} {feed : Feed}
    (hcode : CodeOf target s m plan range stage code)
    (hnodup : ((ordered s m).map fun b => (feedOf target s plan range b).endpoint).Nodup)
    (hb : b ∈ ordered s m) (hfeed : feedOf target s plan range b = feed) :
    stage.taken feed.endpoint = (b.filled feed).map (·.2) ++
      (((List.range stage.tripCount).flatMap fun i =>
        (b.fetched feed stage.tripCount i).map (·.2)) ++
          (b.leftover feed stage.tripCount).map (·.2)) := by
  subst hfeed
  have hfilled : ∀ b ∈ ordered s m, ∀ x ∈ b.filled (feedOf target s plan range b),
      x.1 = (feedOf target s plan range b).endpoint := fun b _ x hx =>
    (LineBuffer.mem_filled hx).1
  have hfetched : ∀ i, ∀ b ∈ ordered s m,
      ∀ x ∈ b.fetched (feedOf target s plan range b) stage.tripCount i,
        x.1 = (feedOf target s plan range b).endpoint := fun i b _ x hx =>
    (LineBuffer.mem_fetched hx).1
  have hleft : ∀ b ∈ ordered s m,
      ∀ x ∈ b.leftover (feedOf target s plan range b) stage.tripCount,
        x.1 = (feedOf target s plan range b).endpoint := fun b _ x hx =>
    (LineBuffer.mem_leftover hx).1
  have hmoves : ∀ i, entriesOf (feedOf target s plan range b).endpoint
      (code.moves.flatMap (AdvanceOp.taken i)) =
        (b.fetched (feedOf target s plan range b) stage.tripCount i).map (·.2) := by
    intro i
    rw [hcode.moves i]
    exact entriesOf_flatMap_of_nodup hnodup (hfetched i) hb
  unfold Stage.taken
  rw [hcode.events, code.taken_executed, hcode.inits, hcode.drains, hcode.trips, entriesOf_append,
    entriesOf_append, entriesOf_flatMap (List.range stage.tripCount), funext hmoves,
    entriesOf_flatMap_of_nodup hnodup hfilled hb, entriesOf_flatMap_of_nodup hnodup hleft hb]

/-- A stage that is not the last one makes enough rows for the footprint of the next. -/
theorem halo_lt_validRows (hplan : plan.WellFormed) (hn : n + 1 < plan.stageCount) :
    plan.halo.top + plan.halo.bottom < (rangeOf plan n).validRows := by
  have hpart := hplan.partRows_pos
  have hle : plan.halo.total * (n + 1) ≤ plan.halo.total * (plan.stageCount - 1) :=
    Nat.mul_le_mul_left _ (by omega)
  rw [Nat.mul_succ] at hle
  simp only [rangeOf, Plan.stageRange]
  unfold Halo.total at hle ⊢
  omega

end Generate

section Streams

open Generate

/-- Between two stages every word is stored once and taken once. The stage before stores its words
at the positions `0`, `1`, `2` and so on. The next one takes as many, and what it takes in place `i`
is meant to be word `i`; only what it throws away at the end has no position, and what it takes up
to there is what its line buffer consumes. The inputs have different names, as analysis makes sure
of. -/
theorem Design.channel_taken_once {target : Accelerator} {s : Stencil} {design : Design}
    {kernel : Kernel} {n : Nat} {previous stage : Stage} (h : s.generate target = .ok design)
    (hne : s.inputVars ≠ []) (hnodup : s.inputVars.Nodup) (hkernel : kernel ∈ design.kernels)
    (hprevious : kernel.stages[n]? = some previous) (hstage : kernel.stages[n + 1]? = some stage) :
    ∃ b ∈ design.buffers, ∃ feed consumed,
      (b.var, feed) ∈ stage.feeds ∧ feed.endpoint = .stream (Plan.channel n) ∧
      previous.output = feed.endpoint ∧
      previous.stored feed.endpoint = List.range previous.tripCount ∧
      feed.words = previous.tripCount ∧
      b.consumed feed stage.tripCount = .ok consumed ∧ consumed ≤ feed.words ∧
      stage.taken feed.endpoint =
        (List.range consumed).map some ++ List.replicate (feed.words - consumed) none ∧
      (stage.taken feed.endpoint).length = feed.words := by
  obtain ⟨m, plan, hbuilt⟩ := built_of_generate h
  obtain ⟨-, hprev⟩ := hbuilt.stage_at hkernel hprevious
  obtain ⟨hn, hnext⟩ := hbuilt.stage_at hkernel hstage
  have hzero : 0 < kernel.stages.length :=
    Nat.zero_lt_of_lt (List.getElem?_eq_some_iff.1 hprevious).1
  have hsigned := hbuilt.signed_top hne
    (hbuilt.stage_at hkernel (List.getElem?_eq_getElem hzero)).2
  have hplan := (plan_of_create hbuilt.plan_eq).1
  obtain ⟨code, hcode⟩ := hbuilt.exists_code hne hprev
  obtain ⟨code', hcode'⟩ := hbuilt.exists_code hne hnext
  obtain ⟨b, -, -, hvar, hmem, hplaced⟩ := hbuilt.exists_buffer (iteratedVar_mem hne)
  set feed : Feed := ⟨.stream (Plan.channel n), plan.halo.top,
    (rangeOf plan n).validRows * (s.gridCols / target.lanes)⟩ with hdef
  have hfeed : feedOf target s plan (rangeOf plan (n + 1)) b = feed := by
    unfold feedOf
    rw [hvar]
    exact feed_stream ..
  obtain ⟨ops, hops⟩ := hcode'.inits_ok b hmem
  have hfetch := hcode'.fetches_ok b hmem
  rw [hfeed] at hops hfetch
  have htop := LineBuffer.top_nonneg_of_init hops
  have hwords : feed.words = (rangeOf plan n).validRows * b.rowWords := by
    rw [hdef, hplaced.rowWords_eq]
  have hfirst := hplaced.firstWord_le hsigned htop (halo_lt_validRows hplan hn) hwords
  have hle : b.firstWord feed + b.validSteps feed stage.tripCount ≤ feed.words := by
    unfold LineBuffer.validSteps
    omega
  have houtput := hcode.output
  have hstored := hcode.stored_eq
  rw [stageOutput_eq (by omega), if_neg (by omega)] at houtput hstored
  have htaken := hcode'.taken_eq (hbuilt.nodup_endpoints hnodup _) hmem hfeed
  rw [LineBuffer.stream_taken rfl] at htaken
  refine ⟨b, hbuilt.buffers ▸ hmem, feed, _, ?_, rfl, houtput, ?_, hcode.tripCount.symm,
    LineBuffer.consumed_eq hfetch, hle, htaken, ?_⟩
  · rw [hcode'.feeds, ← hfeed]
    exact List.mem_map_of_mem hmem
  · rwa [houtput, ← List.range_eq_range'] at hstored
  · rw [htaken, List.length_append, List.length_map, List.length_range, List.length_replicate]
    omega

/-- The rows above and below of one input, and the row in between of another one. -/
def between : Stencil where
  iterate := 2
  kernelName := "between"
  partitions := 1
  size := [2, 4]
  inputVars := ["c", "a"]
  outputVar := "b"
  outputIdx := [0, 0]
  output := ⟨⟨"b", [0, 0]⟩, [], .chain .sum
    [.operand (.ref ⟨"a", [0, 0]⟩), .operand (.ref ⟨"c", [-1, 0]⟩),
      .operand (.ref ⟨"c", [1, 0]⟩)] ["+", "+"]⟩
  refs := [("a", [[0, 0]]), ("c", [[-1, 0], [1, 0]])]
  scalars := []

theorem between_generated : ∃ design kernel previous stage,
    between.generate ⟨2, 64, 2, 1⟩ = .ok design ∧ kernel ∈ design.kernels ∧
    kernel.stages[0]? = some previous ∧ kernel.stages[1]? = some stage ∧ previous.tripCount = 8 ∧
    ∀ b ∈ design.buffers, ∀ f ∈ stage.feeds, f.1 = b.var → f.2.endpoint = .stream "temp_out_0" →
      (b.consumed f.2 stage.tripCount).toOption = some 7 :=
  ⟨_, _, _, _, rfl, List.mem_cons_self, rfl, rfl, rfl, by decide⟩

/-- The second stage consumes seven of the eight words, and throws the last one away. -/
theorem between_taken : ∃ design kernel previous stage,
    between.generate ⟨2, 64, 2, 1⟩ = .ok design ∧ between.inputVars ≠ [] ∧
    between.inputVars.Nodup ∧ kernel ∈ design.kernels ∧ kernel.stages[0]? = some previous ∧
    kernel.stages[1]? = some stage ∧ previous.stored (.stream "temp_out_0") = List.range 8 ∧
    stage.taken (.stream "temp_out_0") = (List.range 7).map some ++ [none] := by
  obtain ⟨design, kernel, previous, stage, hgen, hkernel, hprevious, hstage, htrips, hseven⟩ :=
    between_generated
  have hne : between.inputVars ≠ [] := by decide
  have hnodup : between.inputVars.Nodup := by decide
  obtain ⟨b, hb, feed, consumed, hfeed, hend, -, hstored, hwords, hconsumed, -, htaken, -⟩ :=
    Design.channel_taken_once hgen hne hnodup hkernel hprevious hstage
  have hvalue := hseven b hb _ hfeed rfl hend
  rw [hconsumed] at hvalue
  cases hvalue
  rw [hend, htrips] at hstored
  rw [hend, hwords, htrips] at htaken
  exact ⟨design, kernel, previous, stage, hgen, hne, hnodup, hkernel, hprevious, hstage, hstored,
    htaken⟩

end Streams

end GridSweep
