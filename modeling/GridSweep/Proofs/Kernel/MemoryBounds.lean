import GridSweep.Proofs.Exchange.HaloRows
import GridSweep.Proofs.Kernel.Channels
import Mathlib

/-!
# Memory bounds

The host gives every buffer the words of its owned rows and of its halo. The stages of a kernel read
and write buffers at rows that depend on the stage, and the exchange sends and receives whole rows.
All of this stays inside the buffers. The last stage writes the owned rows, the exchange sends
owned rows and receives into the halo.
-/

namespace GridSweep

namespace Generate

variable {target : Accelerator} {s : Stencil} {m : List (String × LineBuffer)} {plan : Plan}
  {design : Design} {stage : Stage} {code : StageCode} {b : LineBuffer} {n : Nat}

/-! ## Sizes -/

/-- The host allocates whole words for all rows. -/
theorem Built.sizes (h : Built target s m plan design) (hne : s.inputVars ≠ []) :
    0 < s.gridCols ∧ design.host.elementsPerBuffer = s.gridCols * plan.bufferRows ∧
      design.host.wordsPerBuffer = plan.bufferRows * (s.gridCols / target.lanes) ∧
      design.host.wordsPerBuffer * target.lanes = design.host.elementsPerBuffer := by
  obtain ⟨b, -, -, -, -, hb⟩ := h.exists_buffer (iteratedVar_mem hne)
  obtain ⟨schedule, hhost⟩ := h.host
  have hpos := hb.rowWords_pos
  have hlanes : 0 < target.lanes := by
    refine Nat.pos_of_ne_zero fun hzero => ?_
    rw [hb.rowWords_eq, hzero, Nat.div_zero] at hpos
    exact Nat.lt_irrefl _ hpos
  have helements : design.host.elementsPerBuffer = s.gridCols * plan.bufferRows := by
    rw [hhost]
    simp only [hostSizing, Plan.bufferRows]
    ring
  have hwords : design.host.wordsPerBuffer = plan.bufferRows * (s.gridCols / target.lanes) := by
    have hdiv : design.host.wordsPerBuffer = design.host.elementsPerBuffer / target.lanes := by
      rw [hhost]
      rfl
    rw [hdiv, helements, ← hb.rowWords_eq, hb.cols_eq, Nat.mul_right_comm,
      Nat.mul_div_cancel _ hlanes, Nat.mul_comm]
  refine ⟨?_, helements, hwords, ?_⟩
  · rw [hb.cols_eq]
    exact Nat.mul_pos hpos hlanes
  · rw [helements, hwords, Nat.mul_assoc, ← hb.rowWords_eq, ← hb.cols_eq, Nat.mul_comm]

/-- The footprint of every stage ends inside the buffer. -/
theorem firstRow_add_lt (hplan : plan.WellFormed) (hn : n < plan.stageCount) :
    (rangeOf plan n).firstRow + plan.halo.bottom < plan.bufferRows := by
  have hpart := hplan.partRows_pos
  have htop : plan.halo.top * (n + 1) ≤ plan.topRows := Nat.mul_le_mul_left _ hn
  have hbottom : plan.halo.bottom ≤ plan.bottomRows :=
    Nat.le_mul_of_pos_right _ hplan.stageCount_pos
  rw [plan.bufferRows_eq]
  simp only [rangeOf, Plan.stageRange]
  omega

/-- The last stage has the owned rows. -/
theorem rangeOf_last (hn : n + 1 = plan.stageCount) :
    (rangeOf plan n).firstRow = plan.topRows ∧ (rangeOf plan n).validRows = plan.partRows := by
  simp only [rangeOf, Plan.stageRange, Plan.topRows, ← hn, Nat.add_sub_cancel]
  exact ⟨trivial, trivial⟩

/-! ## Stages -/

theorem feedOf_of_memory {v : String}
    (h : (feedOf target s plan (rangeOf plan n) b).endpoint = .memory v) :
    feedOf target s plan (rangeOf plan n) b = ⟨.memory b.var, (rangeOf plan n).firstRow,
      plan.bufferRows * (s.gridCols / target.lanes)⟩ := by
  unfold feedOf feed at h ⊢
  split
  · rfl
  · next hstream =>
    rw [if_neg hstream] at h
    cases h

/-- What a stage takes from memory is inside the buffer. -/
theorem CodeOf.taken_lt (h : Built target s m plan design)
    (hcode : CodeOf target s m plan (rangeOf plan n) stage code) (hn : n < plan.stageCount)
    (hrows : plan.bufferRows < 2 ^ 64) {e : Event} (he : e ∈ stage.events) {step : Nat} {v : String}
    {a : Option Nat} (hx : (.memory v, a) ∈ e.taken step) :
    ∃ i < plan.bufferRows * (s.gridCols / target.lanes), a = some i := by
  have hplan := (plan_of_create h.plan_eq).1
  rw [hcode.events] at he
  rcases StageCode.mem_taken he hx with hx | hx | hx
  · -- the center row is a 64-bit number, so the rows of the footprint are where they should be
    rw [hcode.inits] at hx
    obtain ⟨b, hb, hx⟩ := List.mem_flatMap.1 hx
    obtain ⟨hend, i, hi, ha⟩ := LineBuffer.mem_filled hx
    have hplaced := h.placed hb
    obtain ⟨ops, hops⟩ := hcode.inits_ok b hb
    have hfeed := feedOf_of_memory hend.symm
    have hcenter : (feedOf target s plan (rangeOf plan n) b).centerRow + plan.halo.bottom <
        plan.bufferRows := by
      rw [hfeed]
      exact firstRow_add_lt hplan hn
    have hwords : (feedOf target s plan (rangeOf plan n) b).words =
        plan.bufferRows * b.rowWords := by
      rw [hfeed, hplaced.rowWords_eq]
    have hfirst := hplaced.firstWord_le (hplaced.signed_eq hops hcenter hrows)
      (LineBuffer.top_nonneg_of_init hops) hcenter hwords
    rw [hwords, hplaced.rowWords_eq] at hfirst
    exact ⟨i, hi.trans_le hfirst, ha⟩
  · rw [hcode.moves] at hx
    obtain ⟨b, hb, hx⟩ := List.mem_flatMap.1 hx
    obtain ⟨hend, i, hi, ha⟩ := LineBuffer.mem_fetched hx
    rw [feedOf_of_memory hend.symm] at hi
    exact ⟨i, hi, ha⟩
  · rw [hcode.drains] at hx
    obtain ⟨b, hb, hx⟩ := List.mem_flatMap.1 hx
    obtain ⟨hend, hs⟩ := LineBuffer.mem_leftover hx
    rw [← hend] at hs
    cases hs

/-- What a stage stores in memory is inside the buffer. -/
theorem CodeOf.stored_lt (hcode : CodeOf target s m plan (rangeOf plan n) stage code)
    (hn : n < plan.stageCount) {e : Event} (he : e ∈ stage.events) {step : Nat}
    (hstep : step < stage.tripCount) {v : String} {a : Nat} (hx : (.memory v, a) ∈ e.stored step) :
    a < plan.bufferRows * (s.gridCols / target.lanes) := by
  rw [hcode.events] at he
  obtain ⟨htarget, rfl⟩ := Prod.mk.inj (StageCode.mem_stored he hx)
  have hstores := hcode.stores
  rw [stageOutput_eq hn] at hstores
  split at hstores
  · next hlast =>
    obtain ⟨hfirst, hvalid⟩ := rangeOf_last hlast
    rw [hcode.tripCount, hvalid] at hstep
    rw [(Prod.mk.inj hstores).2, hfirst, plan.bufferRows_eq, Nat.add_mul, Nat.add_mul]
    omega
  · rw [← htarget] at hstores
    cases (Prod.mk.inj hstores).1

/-- The last stage stores exactly the owned rows. -/
theorem Built.last_stored {kernel : Kernel} (h : Built target s m plan design)
    (hne : s.inputVars ≠ []) (hkernel : kernel ∈ design.kernels) :
    ∃ last, kernel.stages.getLast? = some last ∧ last.output = .memory s.outputVar ∧
      last.stored (.memory s.outputVar) =
        List.range' (plan.topRows * (s.gridCols / target.lanes))
          (plan.partRows * (s.gridCols / target.lanes)) := by
  have hplan := (plan_of_create h.plan_eq).1
  have hlen : kernel.stages.length = plan.stageCount := by
    rw [← (h.stages kernel hkernel).length_eq, hplan.stages_eq, List.length_map, List.length_range]
  have hpos := hplan.stageCount_pos
  have hlast : kernel.stages.getLast? = kernel.stages[plan.stageCount - 1]? := by
    rw [List.getLast?_eq_getElem?, hlen]
  have hget := List.getElem?_eq_getElem (show plan.stageCount - 1 < kernel.stages.length by omega)
  obtain ⟨hn, hone⟩ := h.stage_at hkernel hget
  obtain ⟨code, hcode⟩ := h.exists_code hne hone
  have hend : plan.stageCount - 1 + 1 = plan.stageCount := by omega
  obtain ⟨hfirst, hvalid⟩ := rangeOf_last hend
  have houtput := hcode.output
  have hstored := hcode.stored_eq
  rw [stageOutput_eq hn, if_pos hend] at houtput hstored
  rw [houtput, hcode.tripCount, hfirst, hvalid] at hstored
  exact ⟨_, hlast.trans hget, houtput, hstored⟩

/-! ## Exchange -/

/-- The rows that a step of an exchange moves. -/
theorem rows_of_forRole {role : Role} {wordsPerRow : Nat} {protocol : ExchangeProtocol}
    (h : ExchangeProtocol.forRole role plan wordsPerRow = .ok (some protocol)) :
    protocol.wordsPerRow = wordsPerRow ∧ ∀ step ∈ protocol.steps,
      step.firstRow + step.rows ≤ plan.bufferRows ∧
      (step.transfer = .send → plan.topRows ≤ step.firstRow ∧
        step.firstRow + step.rows ≤ plan.topRows + plan.partRows) ∧
      (step.transfer = .receive → step.firstRow + step.rows ≤ plan.topRows ∨
        plan.topRows + plan.partRows ≤ step.firstRow) := by
  unfold ExchangeProtocol.forRole at h
  split at h
  · cases h
  split at h
  · cases h
  next hfit =>
  cases h
  refine ⟨rfl, fun step hstep => ?_⟩
  have hmem : step ∈ ExchangeProtocol.withAbove plan ++ ExchangeProtocol.withBelow plan := by
    have hsteps := List.mem_of_mem_filter hstep
    unfold ExchangeProtocol.stepsOf at hsteps
    split at hsteps
    · cases hsteps
    · exact List.mem_append_right _ hsteps
    · exact hsteps
    · exact List.mem_append_left _ hsteps
  rw [plan.bufferRows_eq]
  rcases Exchange.mem_withAbove_append_withBelow hmem with rfl | rfl | rfl | rfl <;> simp <;> omega

end Generate

section Accesses

open Generate

/-- No kernel reads or writes memory outside of the buffers that the host allocates, as long as the
number of elements of a buffer is a 64-bit number. The stencil has an input, as analysis makes sure
of. -/
theorem Design.accesses_in_bounds {target : Accelerator} {s : Stencil} {design : Design}
    (h : s.generate target = .ok design) (hne : s.inputVars ≠ [])
    (hsize : design.host.elementsPerBuffer < 2 ^ 64) :
    ∃ plan, Plan.create target s.partRows ⟨design.header.topAppend, design.header.bottomAppend⟩ =
        .ok plan ∧
      design.host.wordsPerBuffer * target.lanes = design.host.elementsPerBuffer ∧
      design.host.elementsPerBuffer = s.gridCols * plan.bufferRows ∧
      ∀ kernel ∈ design.kernels,
        (∀ stage ∈ kernel.stages, ∀ e ∈ stage.events, ∀ v,
          (∀ step a, (.memory v, a) ∈ e.taken step →
            ∃ i < design.host.wordsPerBuffer, a = some i) ∧
          ∀ step < stage.tripCount, ∀ a, (.memory v, a) ∈ e.stored step →
            a < design.host.wordsPerBuffer) ∧
        (∃ last, kernel.stages.getLast? = some last ∧ last.output = .memory s.outputVar ∧
          last.stored (.memory s.outputVar) =
            List.range' (plan.topRows * (s.gridCols / target.lanes))
              (plan.partRows * (s.gridCols / target.lanes))) ∧
        ∀ protocol, kernel.exchange = some protocol → ∀ step ∈ protocol.steps,
          (step.firstRow + step.rows) * protocol.wordsPerRow ≤ design.host.wordsPerBuffer ∧
          (step.transfer = .send → plan.topRows ≤ step.firstRow ∧
            step.firstRow + step.rows ≤ plan.topRows + plan.partRows) ∧
          (step.transfer = .receive → step.firstRow + step.rows ≤ plan.topRows ∨
            plan.topRows + plan.partRows ≤ step.firstRow) := by
  obtain ⟨m, plan, hbuilt⟩ := built_of_generate h
  obtain ⟨hcols, helements, hwords, hlanes⟩ := hbuilt.sizes hne
  obtain ⟨-, -, -, hhalo⟩ := plan_of_create hbuilt.plan_eq
  have hrows : plan.bufferRows < 2 ^ 64 := by
    rw [helements] at hsize
    exact (Nat.le_mul_of_pos_left _ hcols).trans_lt hsize
  refine ⟨plan, ?_, hlanes, helements, fun kernel hkernel =>
    ⟨fun stage hstage e he v => ?_, ?_, ?_⟩⟩
  · have hcreate := hbuilt.plan_eq
    rw [← hhalo] at hcreate
    rw [hbuilt.header]
    exact hcreate
  · obtain ⟨n, hget⟩ := List.getElem?_of_mem hstage
    obtain ⟨hn, hone⟩ := hbuilt.stage_at hkernel hget
    obtain ⟨code, hcode⟩ := hbuilt.exists_code hne hone
    rw [hwords]
    exact ⟨fun step a hx => hcode.taken_lt hbuilt hn hrows he hx,
      fun step hstep a hx => hcode.stored_lt hn he hstep hx⟩
  · exact hbuilt.last_stored hne hkernel
  · intro protocol hprotocol step hstep
    have hexchange := hbuilt.exchange kernel hkernel
    rw [hprotocol] at hexchange
    obtain ⟨hwordsPerRow, hsteps⟩ := rows_of_forRole hexchange
    obtain ⟨hin, hrest⟩ := hsteps step hstep
    rw [hwordsPerRow, hwords]
    exact ⟨Nat.mul_le_mul_right _ hin, hrest⟩

/-- Two bands of two rows each, with an exchange between two sweeps. -/
def bands : Stencil := { between with iterate := 4, partitions := 2, size := [4, 4] }

theorem bands_generated : (bands.generate ⟨2, 64, 2, 1⟩).map (fun design =>
    (design.host.elementsPerBuffer, design.kernels.map (·.exchange.isSome))) =
      .ok (24, [true, true]) := by
  cbv

theorem bands_in_bounds : ∃ (design : Design) (plan : Plan),
    bands.generate ⟨2, 64, 2, 1⟩ = .ok design ∧ bands.inputVars ≠ [] ∧
    design.host.elementsPerBuffer = 24 ∧ plan.bufferRows = 6 ∧ design.kernels.length = 2 ∧
    ∀ kernel ∈ design.kernels,
      (∀ stage ∈ kernel.stages, ∀ e ∈ stage.events, ∀ step a, (.memory "c", a) ∈ e.taken step →
        ∃ i < 12, a = some i) ∧
      ∃ protocol, kernel.exchange = some protocol ∧ ∀ step ∈ protocol.steps,
        (step.firstRow + step.rows) * protocol.wordsPerRow ≤ 12 := by
  obtain ⟨design, hgen, hfacts⟩ : ∃ design, bands.generate ⟨2, 64, 2, 1⟩ = .ok design ∧
      (design.host.elementsPerBuffer, design.kernels.map (·.exchange.isSome)) =
        (24, [true, true]) := by
    have hmap := bands_generated
    cases hgen : bands.generate ⟨2, 64, 2, 1⟩ with
    | error e =>
      rw [hgen] at hmap
      cases hmap
    | ok design =>
      rw [hgen] at hmap
      exact ⟨design, rfl, Except.ok.inj hmap⟩
  obtain ⟨hsize, hexchange⟩ := Prod.mk.inj hfacts
  have hne : bands.inputVars ≠ [] := by decide
  have hlt : design.host.elementsPerBuffer < 2 ^ 64 := by
    rw [hsize]
    decide
  obtain ⟨plan, -, hwords, hrows, hkernels⟩ := Design.accesses_in_bounds hgen hne hlt
  have hwords' : design.host.wordsPerBuffer * 2 = design.host.elementsPerBuffer := hwords
  have hrows' : design.host.elementsPerBuffer = 4 * plan.bufferRows := hrows
  have htwelve : design.host.wordsPerBuffer = 12 := by omega
  rw [htwelve] at hkernels
  refine ⟨design, plan, hgen, hne, hsize, by omega, ?_, fun kernel hkernel => ?_⟩
  · simpa using congrArg List.length hexchange
  · obtain ⟨hstages, -, hsteps⟩ := hkernels kernel hkernel
    refine ⟨fun stage hstage e he => (hstages stage hstage e he "c").1, ?_⟩
    have hsome : kernel.exchange.isSome ∈ [true, true] := by
      rw [← hexchange]
      exact List.mem_map_of_mem hkernel
    obtain ⟨protocol, hprotocol⟩ := Option.isSome_iff_exists.1 (by simpa using hsome)
    exact ⟨protocol, hprotocol, fun step hstep => (hsteps protocol hprotocol step hstep).1⟩

end Accesses

end GridSweep
