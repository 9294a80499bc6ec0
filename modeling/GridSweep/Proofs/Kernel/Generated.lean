import GridSweep.Proofs.Pipeline
import GridSweep.Proofs.Kernel.StageRun
import GridSweep.Proofs.Stencil.WellFormed

/-!
# What the generator makes

The pieces of a generated design, as far as its kernels depend on them: the line buffer of every
input has words for all offsets that the input is read at, the plan has halos that cover all
buffers, and every stage has the events of its parts.
-/

namespace GridSweep

/-! ## Rows of a footprint -/

namespace RowRefs

/-- An offset is read. -/
def Has (rows : RowRefs) (r c : Int) : Prop := ∃ cols, (r, cols) ∈ rows ∧ c ∈ cols

theorem ascending_insert {rows : RowRefs} (h : Ascending rows) (row col : Int) :
    Ascending (rows.insert row col) := ascending_alter h ..

theorem has_insert {rows : RowRefs} {row col r c : Int} :
    (rows.insert row col).Has r c ↔ (r = row ∧ c = col) ∨ rows.Has r c :=
  has_alter_insert

theorem ofOffsets_spec {offsets : List Offset} {rows : RowRefs} (h : ofOffsets offsets = .ok rows) :
    Ascending rows ∧ (∀ o ∈ offsets, o = [o.row, o.col]) ∧
      ∀ r c, rows.Has r c ↔ ∃ o ∈ offsets, o.row = r ∧ o.col = c := by
  unfold ofOffsets at h
  have hgen : ∀ (offsets : List Offset) (start : RowRefs), Ascending start →
      offsets.foldlM (fun rows o => if o.length = 2 then (.ok (rows.insert o.row o.col) :
        Except Error RowRefs) else .error (.unsupportedDimensions o.length)) start = .ok rows →
      Ascending rows ∧ (∀ o ∈ offsets, o = [o.row, o.col]) ∧
        ∀ r c, rows.Has r c ↔ (∃ o ∈ offsets, o.row = r ∧ o.col = c) ∨ start.Has r c := by
    intro offsets
    induction offsets with
    | nil =>
      intro start hs h
      cases h
      exact ⟨hs, by simp, by simp⟩
    | cons o offsets ih =>
      intro start hs h
      rw [List.foldlM_cons] at h
      obtain ⟨next, hnext, h⟩ := bind_eq_ok.1 h
      split at hnext
      swap
      · cases hnext
      next hlen =>
      cases hnext
      obtain ⟨hasc, htwo, hhas⟩ := ih _ (ascending_insert hs o.row o.col) h
      refine ⟨hasc, fun x hx => ?_, fun r c => ?_⟩
      · rcases List.mem_cons.1 hx with rfl | hx
        · obtain ⟨r, c, rfl⟩ := List.length_eq_two.1 hlen
          rfl
        · exact htwo x hx
      · rw [hhas, has_insert]
        simp only [List.mem_cons, exists_eq_or_imp]
        have hcomm : (r = o.row ∧ c = o.col) ↔ (o.row = r ∧ o.col = c) := by
          constructor <;> rintro ⟨rfl, rfl⟩ <;> exact ⟨rfl, rfl⟩
        rw [hcomm, or_left_comm, or_assoc]
  obtain ⟨hasc, htwo, hhas⟩ := hgen offsets [] List.Pairwise.nil h
  exact ⟨hasc, htwo, by simpa [Has] using hhas⟩

end RowRefs

/-! ## Line buffers -/

namespace Generate

variable {target : Accelerator} {s : Stencil} {forward : Option Forward} {var : String}
  {b : LineBuffer}

/-- The line buffer of an input: laid out on the grid's words, with a register for every word that
its lanes read. -/
structure BufferOf (target : Accelerator) (s : Stencil) (forward : Option Forward) (var : String)
    (b : LineBuffer) : Prop where
  var_eq : b.var = var
  laid : b.Laid
  fits : b.RowsFit
  reaches : b.Reaches target.lanes
  rowWords_eq : b.rowWords = s.gridCols / target.lanes
  cols_eq : s.gridCols = b.rowWords * target.lanes
  offsets : ∃ offsets, s.refs.get? var = some offsets ∧
    ∀ o ∈ offsets, o = [o.row, o.col] ∧ RowRefs.Has b.rows o.row o.col
  extra : var = s.iteratedVar → hasExtra forward → RowRefs.Has b.rows 0 0

theorem validate_ok (h : target.validate = .ok ()) :
    32 * target.lanes = target.wordBits ∧ target.unroll = target.lanes ∧ target.stages ≠ 0 := by
  unfold Accelerator.validate at h
  split at h
  · cases h
  next hw =>
  split at h
  · cases h
  next hu =>
  split at h
  · cases h
  next hs =>
  rw [not_or, not_not] at hw
  refine ⟨?_, by simpa using hu, hs⟩
  unfold Accelerator.lanes
  omega

/-- The line buffer of an input comes from its offsets, and from the output point if that is
forwarded. -/
theorem buffer_ok (h : buffer target s forward var = .ok b) :
    ∃ offsets rows, s.refs.get? var = some offsets ∧ Ascending rows ∧
      (∀ o ∈ offsets, o = [o.row, o.col]) ∧
      (∀ r c, RowRefs.Has rows r c ↔ (∃ o ∈ offsets, o.row = r ∧ o.col = c) ∨
        (var = s.iteratedVar ∧ hasExtra forward ∧ r = 0 ∧ c = 0)) ∧
      LineBuffer.synthesize var rows target s.gridCols = .ok b ∧
      b.checkFits s.gridCols target.lanes = .ok () := by
  unfold buffer at h
  split at h
  · cases h
  next offsets hrefs =>
  obtain ⟨rows, hrows, h⟩ := bind_eq_ok.1 h
  obtain ⟨b', hb, h⟩ := bind_eq_ok.1 h
  obtain ⟨_, hfits, h⟩ := bind_eq_ok.1 h
  cases h
  obtain ⟨hasc, htwo, hhas⟩ := RowRefs.ofOffsets_spec hrows
  refine ⟨offsets, _, hrefs, ?_, htwo, fun r c => ?_, hb, hfits⟩
  · split
    · exact RowRefs.ascending_insert hasc 0 0
    · exact hasc
  · split
    · next hex =>
      rw [RowRefs.has_insert, hhas, or_comm]
      exact or_congr_right ⟨fun h => ⟨hex.1, hex.2, h⟩, fun h => h.2.2⟩
    · next hex =>
      rw [hhas]
      exact ⟨.inl, fun h => h.resolve_right fun h => hex ⟨h.1, h.2.1⟩⟩

theorem bufferOf_of_buffer (htarget : target.validate = .ok ()) (hbits : target.wordBits ≤ 2 ^ 63)
    (h : buffer target s forward var = .ok b) : BufferOf target s forward var b := by
  obtain ⟨hlaneBits, hunroll, -⟩ := validate_ok htarget
  obtain ⟨offsets, rows, hrefs, hasc, htwo, hhas, hb, hfits⟩ := buffer_ok h
  obtain ⟨-, -, -, hvar, hbrows, -, hwords, -⟩ := LineBuffer.synthesize_eq hb
  obtain ⟨hlanes, hmod, hfit⟩ := LineBuffer.checkFits_ok hfits
  refine ⟨hvar, LineBuffer.laid_of_synthesize hasc hb, hfit, ?_, hwords, ?_,
    ⟨offsets, hrefs, ?_⟩, ?_⟩
  · rw [← hunroll]
    exact LineBuffer.reaches_of_synthesize hasc (by omega) hb
  · rw [hwords, Nat.div_mul_cancel (Nat.dvd_of_mod_eq_zero hmod)]
  · intro o ho
    rw [hbrows]
    exact ⟨htwo o ho, (hhas _ _).2 (.inl ⟨o, ho, rfl, rfl⟩)⟩
  · intro hv hex
    rw [hbrows]
    exact (hhas _ _).2 (.inr ⟨hv, hex, rfl, rfl⟩)

/-- The line buffers by name: one for every input, and no other. -/
theorem get?_buffers {m : List (String × LineBuffer)} (h : buffers target s forward = .ok m) :
    ∀ v, (v ∈ s.inputVars → ∃ b, buffer target s forward v = .ok b ∧ Ordered.get? v m = some b) ∧
      ∀ b, Ordered.get? v m = some b → v ∈ s.inputVars ∧ buffer target s forward v = .ok b := by
  unfold buffers at h
  have hgen : ∀ (vars : List String) (start : List (String × LineBuffer)),
      vars.foldlM (fun m var => return Ordered.put var (← buffer target s forward var) m) start =
        .ok m →
      ∀ v, (v ∈ vars → ∃ b, buffer target s forward v = .ok b ∧ Ordered.get? v m = some b) ∧
        (v ∉ vars → Ordered.get? v m = Ordered.get? v start) := by
    intro vars
    induction vars with
    | nil =>
      intro start h
      cases h
      simp
    | cons x vars ih =>
      intro start h v
      rw [List.foldlM_cons] at h
      obtain ⟨next, hnext, h⟩ := bind_eq_ok.1 h
      obtain ⟨b, hb, hnext⟩ := bind_eq_ok.1 hnext
      cases hnext
      obtain ⟨hin, hout⟩ := ih _ h v
      by_cases hv : v ∈ vars
      · exact ⟨fun _ => hin hv, fun hno => absurd (List.mem_cons_of_mem _ hv) hno⟩
      · by_cases hvx : v = x
        · subst hvx
          refine ⟨fun _ => ⟨b, hb, ?_⟩, fun hno => absurd List.mem_cons_self hno⟩
          rw [hout hv, get?_put_self]
        · refine ⟨fun hm => absurd hm (by simp [hvx, hv]), fun _ => ?_⟩
          rw [hout hv, get?_put_of_ne hvx]
  intro v
  obtain ⟨hin, hout⟩ := hgen _ _ h v
  refine ⟨hin, fun b hb => ?_⟩
  by_cases hv : v ∈ s.inputVars
  · obtain ⟨b', hb', hget⟩ := hin hv
    cases hget.symm.trans hb
    exact ⟨hv, hb'⟩
  · rw [hout hv] at hb
    simp [Ordered.get?] at hb

/-! ## Rows of all buffers -/

/-- The bounds cover the rows of every buffer and the output row. -/
theorem ofBuffers_spec (bs : List LineBuffer) :
    (RowBounds.ofBuffers bs).low ≤ 0 ∧ 0 ≤ (RowBounds.ofBuffers bs).high ∧
      ∀ b ∈ bs, (RowBounds.ofBuffers bs).low ≤ b.topRow ∧
        b.bottomRow ≤ (RowBounds.ofBuffers bs).high := by
  unfold RowBounds.ofBuffers
  have hgen : ∀ (bs : List LineBuffer) (start : RowBounds),
      let r := bs.foldl (fun r b => ⟨min r.low b.topRow, max r.high b.bottomRow⟩) start
      r.low ≤ start.low ∧ start.high ≤ r.high ∧
        ∀ b ∈ bs, r.low ≤ b.topRow ∧ b.bottomRow ≤ r.high := by
    intro bs
    induction bs with
    | nil => simp
    | cons b bs ih =>
      intro start
      obtain ⟨hlow, hhigh, hmem⟩ := ih ⟨min start.low b.topRow, max start.high b.bottomRow⟩
      simp only [List.foldl_cons] at hlow hhigh ⊢
      refine ⟨by omega, by omega, fun x hx => ?_⟩
      rcases List.mem_cons.1 hx with rfl | hx
      · omega
      · exact hmem x hx
  exact hgen bs ⟨0, 0⟩

/-! ## Lane reads -/

/-- The values that the lanes take: the taps, and the iterated variable at the output point if it is
read for forwarding only. -/
def ports (target : Accelerator) (s : Stencil) : List Tap :=
  s.taps ++ if hasExtra (forward? target s) then
    [⟨s.iteratedVar, [0, 0], Offset.tapName s.iteratedVar [0, 0]⟩] else []

theorem iteratedVar_mem (hne : s.inputVars ≠ []) : s.iteratedVar ∈ s.inputVars := by
  unfold Stencil.iteratedVar
  rw [List.getLast?_eq_some_getLast hne]
  exact List.getLast_mem _

/-- There is a lane read for every port. -/
theorem laneReads_ok {m : List (String × LineBuffer)} {events : List Event} (hdims : s.dims = 2)
    (hiter : ∃ b, Ordered.get? s.iteratedVar m = some b)
    (h : laneReads s m (forward? target s) = .ok events) :
    ∃ reads : List (String × LaneRead), events = reads.map (fun r => .laneRead r.1 r.2) ∧
      List.Forall₂ (fun t r => r.1 = t.name ∧ ∃ b, Ordered.get? t.var m = some b ∧
        b.laneRead t.offset = .ok r.2) (ports target s) reads := by
  unfold laneReads at h
  obtain ⟨taps, htaps, h⟩ := bind_eq_ok.1 h
  rw [mapM_eq_ok_iff] at htaps
  have hreads : ∃ reads : List (String × LaneRead), taps = reads.map (fun r => .laneRead r.1 r.2) ∧
      List.Forall₂ (fun t r => r.1 = t.name ∧ ∃ b, Ordered.get? t.var m = some b ∧
        b.laneRead t.offset = .ok r.2) s.taps reads := by
    clear h
    generalize s.taps = ts at htaps ⊢
    induction htaps with
    | nil => exact ⟨[], rfl, .nil⟩
    | @cons t e ts es hhead _ ih =>
      obtain ⟨reads, rfl, hreads⟩ := ih
      split at hhead
      · cases hhead
      next b hb =>
      obtain ⟨read, hread, he⟩ := bind_eq_ok.1 hhead
      cases he
      exact ⟨(t.name, read) :: reads, rfl, .cons ⟨rfl, b, hb, hread⟩ hreads⟩
  obtain ⟨reads, rfl, hreads⟩ := hreads
  obtain ⟨b, hb⟩ := hiter
  rw [hb] at h
  unfold ports
  cases hf : forward? target s with
  | none =>
    rw [hf] at h
    cases h
    exact ⟨reads, rfl, by simpa [hasExtra] using hreads⟩
  | some f =>
    rw [hf] at h
    have hextra : hasExtra (some f) = f.extra := rfl
    rw [hextra]
    simp only at h
    split at h
    · next hx =>
      obtain ⟨read, hread, h⟩ := bind_eq_ok.1 h
      cases h
      have htap : f.tap = Offset.tapName s.iteratedVar [0, 0] := by
        unfold forward? at hf
        split at hf
        · cases hf
        · cases hf
          simp only [hdims]
          rfl
      rw [if_pos hx]
      refine ⟨reads ++ [(f.tap, read)], by simp,
        List.rel_append hreads (.cons ⟨htap, b, hb, hread⟩ .nil)⟩
    · next hx =>
      cases h
      rw [if_neg hx, List.append_nil]
      exact ⟨reads, rfl, hreads⟩

/-! ## Stages and designs -/

/-- The line buffers in the order of the inputs. -/
def ordered (s : Stencil) (m : List (String × LineBuffer)) : List LineBuffer :=
  s.inputVars.filterMap (Ordered.get? · m)

/-- The parts of a stage come from the line buffers and their feeds. -/
theorem stage_ok {plan : Plan} {point : PointFunction} {m : List (String × LineBuffer)}
    {range : StageRange} {stage : Stage}
    (h : Generate.stage target s plan point m forward range = .ok stage) :
    let rowWords := s.gridCols / target.lanes
    let trips := range.validRows * rowWords
    let feedOf := fun b : LineBuffer => feed plan range b.var s.iteratedVar rowWords
    ∃ inits reads moves drained,
      List.Forall₂ (fun b ops => b.init (feedOf b) = .ok ops) (ordered s m) inits ∧
      laneReads s m forward = .ok reads ∧
      List.Forall₂ (fun b ops => b.advance (feedOf b) trips = .ok ops) (ordered s m) moves ∧
      List.Forall₂ (fun b ops => drains (1 < s.iterate) trips b (feedOf b) = .ok ops)
        (ordered s m) drained ∧
      ∀ taps : List (String × LaneRead), reads = taps.map (fun r => .laneRead r.1 r.2) →
        stage.events = StageCode.events {
          declares := (ordered s m).flatMap (·.storage)
          inits := inits.flatten
          trips
          unroll := target.unroll
          reads := taps
          function := point.name
          args := point.params
          forward := forward.map (·.tap)
          target := (stageOutput s range rowWords).1
          first := (stageOutput s range rowWords).2
          moves := moves.flatten
          drains := drained.flatten } := by
  dsimp only
  unfold Generate.stage at h
  dsimp only at h
  rw [← List.map_prod_left_eq_zip] at h
  obtain ⟨inits, hinits, h⟩ := bind_eq_ok.1 h
  obtain ⟨reads, hreads, h⟩ := bind_eq_ok.1 h
  obtain ⟨moves, hmoves, h⟩ := bind_eq_ok.1 h
  obtain ⟨drained, hdrained, h⟩ := bind_eq_ok.1 h
  cases h
  rw [mapM_eq_ok_iff, List.forall₂_map_left_iff] at hinits hmoves hdrained
  refine ⟨inits, reads, moves, drained, hinits, hreads, hmoves, hdrained, ?_⟩
  rintro taps rfl
  simp [StageCode.events, ordered, List.map_flatMap]

/-- The rows of stage `n`. -/
def rangeOf (plan : Plan) (n : Nat) : StageRange :=
  Plan.stageRange plan.stageCount plan.partRows plan.halo n

/-- The last stage writes to memory and every other one to a channel. -/
theorem stageOutput_eq {plan : Plan} {n : Nat} (hn : n < plan.stageCount) (rowWords : Nat) :
    stageOutput s (rangeOf plan n) rowWords = if n + 1 = plan.stageCount then
      (.memory s.outputVar, (rangeOf plan n).firstRow * rowWords)
    else (.stream (Plan.channel n), 0) := by
  unfold stageOutput rangeOf Plan.stageRange Plan.kindOf
  by_cases hone : plan.stageCount = 1
  · have hlast : n + 1 = plan.stageCount := by omega
    simp only [if_pos hone, if_pos hlast]
  · by_cases hfirst : n = 0
    · have hlast : ¬ n + 1 = plan.stageCount := by omega
      simp only [if_neg hone, if_pos hfirst, if_neg hlast]
    · by_cases hlast : n + 1 = plan.stageCount
      · simp only [if_neg hone, if_neg hfirst, if_pos hlast]
      · simp only [if_neg hone, if_neg hfirst, if_neg hlast]

theorem feed_memory {plan : Plan} {n rowWords : Nat} {iterated : String}
    (h : n = 0 ∨ var ≠ iterated) : feed plan (rangeOf plan n) var iterated rowWords =
      ⟨.memory var, (rangeOf plan n).firstRow, plan.bufferRows * rowWords⟩ := if_pos h

theorem feed_stream (plan : Plan) (n : Nat) (iterated : String) (rowWords : Nat) :
    feed plan (rangeOf plan (n + 1)) iterated iterated rowWords = ⟨.stream (Plan.channel n),
      plan.halo.top, (rangeOf plan n).validRows * rowWords⟩ := by
  unfold feed
  rw [if_neg (by simp [rangeOf, Plan.stageRange])]
  simp [rangeOf, Plan.stageRange, Nat.mul_succ]

/-- How a design is put together. -/
structure Built (target : Accelerator) (s : Stencil) (m : List (String × LineBuffer)) (plan : Plan)
    (design : Design) : Prop where
  valid : target.validate = .ok ()
  dims : s.dims = 2
  lineBuffers : Generate.buffers target s (forward? target s) = .ok m
  plan_eq : Plan.create target s.partRows ⟨(RowBounds.ofBuffers (m.map (·.2))).topHalo,
    (RowBounds.ofBuffers (m.map (·.2))).bottomHalo⟩ = .ok plan
  target_eq : design.target = target
  header : design.header = headerFacts target s plan
  host : ∃ schedule, design.host = hostSizing target s plan schedule
  buffers : design.buffers = ordered s m
  schedule : ∀ k ∈ design.kernels,
    Schedule.create (BitVec.ofNat 32 s.iterate) plan s.iteratedVar s.outputVar = .ok k.schedule
  exchange : ∀ k ∈ design.kernels,
    ExchangeProtocol.forRole k.role plan (s.gridCols / target.lanes) = .ok k.exchange
  stages : ∀ k ∈ design.kernels, List.Forall₂ (fun range stage =>
    Generate.stage target s plan k.point m (forward? target s) range = .ok stage)
    plan.stages k.stages
  point : ∀ k ∈ design.kernels, pointFunction s = .ok k.point
  channels : ∀ k ∈ design.kernels,
    k.channels = (List.range (plan.stageCount - 1)).map Plan.channel

theorem built_of_generate {design : Design} (h : s.generate target = .ok design) :
    ∃ m plan, Built target s m plan design := by
  unfold Stencil.generate at h
  obtain ⟨_, hvalid, h⟩ := bind_eq_ok.1 h
  obtain ⟨_, hdims, h⟩ := bind_eq_ok.1 h
  obtain ⟨m, hm, h⟩ := bind_eq_ok.1 h
  obtain ⟨plan, hplan, h⟩ := bind_eq_ok.1 h
  obtain ⟨schedule, hschedule, h⟩ := bind_eq_ok.1 h
  obtain ⟨point, hpoint, h⟩ := bind_eq_ok.1 h
  obtain ⟨stages, hstages, h⟩ := bind_eq_ok.1 h
  obtain ⟨chain, -, h⟩ := bind_eq_ok.1 h
  obtain ⟨_, -, h⟩ := bind_eq_ok.1 h
  obtain ⟨kernels, hkernels, h⟩ := bind_eq_ok.1 h
  cases h
  have hkernel : ∀ k ∈ kernels, k.point = point ∧ k.stages = stages ∧ k.schedule = schedule ∧
      k.channels = (List.range (plan.stageCount - 1)).map Plan.channel ∧
      ExchangeProtocol.forRole k.role plan (s.gridCols / target.lanes) = .ok k.exchange := by
    intro k hk
    obtain ⟨role, -, hrole⟩ := exists_left_of_forall₂ (mapM_eq_ok_iff.1 hkernels) hk
    obtain ⟨exchange, hexchange, hrole⟩ := bind_eq_ok.1 hrole
    cases hrole
    exact ⟨rfl, rfl, rfl, rfl, hexchange⟩
  refine ⟨m, plan, hvalid, ?_, hm, hplan, rfl, rfl, ⟨schedule, rfl⟩, rfl,
    fun k hk => (hkernel k hk).2.2.1 ▸ hschedule, fun k hk => (hkernel k hk).2.2.2.2,
    fun k hk => ?_, fun k hk => (hkernel k hk).1 ▸ hpoint, fun k hk => (hkernel k hk).2.2.2.1⟩
  · unfold Stencil.ensure2d at hdims
    split at hdims
    · assumption
    · cases hdims
  · obtain ⟨rfl, rfl, -⟩ := hkernel k hk
    exact mapM_eq_ok_iff.1 hstages

/-- A line buffer that lies on the words of the grid and within the halo of the plan. -/
structure Placed (target : Accelerator) (s : Stencil) (plan : Plan) (b : LineBuffer) : Prop where
  laid : b.Laid
  fits : b.RowsFit
  rowWords_eq : b.rowWords = s.gridCols / target.lanes
  cols_eq : s.gridCols = b.rowWords * target.lanes
  top_ge : -(plan.halo.top : Int) ≤ b.topRow
  bottom_le : b.bottomRow ≤ plan.halo.bottom

section Placing

variable {m : List (String × LineBuffer)} {plan : Plan} {design : Design}

theorem Built.exists_buffer (h : Built target s m plan design) (hv : var ∈ s.inputVars) :
    ∃ b, buffer target s (forward? target s) var = .ok b ∧ Ordered.get? var m = some b ∧
      b.var = var ∧ b ∈ ordered s m ∧ Placed target s plan b := by
  obtain ⟨b, hb, hget⟩ := (get?_buffers h.lineBuffers var).1 hv
  obtain ⟨-, rows, -, hasc, -, -, hsyn, hfits⟩ := buffer_ok hb
  obtain ⟨-, -, -, hvar, -, -, hwords, -⟩ := LineBuffer.synthesize_eq hsyn
  obtain ⟨-, hmod, hfit⟩ := LineBuffer.checkFits_ok hfits
  obtain ⟨hlow, hhigh, hrows⟩ := ofBuffers_spec (m.map (·.2))
  have hrow := hrows b (List.mem_map.2 ⟨_, mem_of_get? hget, rfl⟩)
  obtain ⟨-, -, -, hhalo⟩ := plan_of_create h.plan_eq
  refine ⟨b, hb, hget, hvar, List.mem_filterMap.2 ⟨_, hv, hget⟩,
    LineBuffer.laid_of_synthesize hasc hsyn, hfit, hwords, ?_, ?_, ?_⟩
  · rw [hwords, Nat.div_mul_cancel (Nat.dvd_of_mod_eq_zero hmod)]
  · simp only [hhalo, RowBounds.topHalo]
    omega
  · simp only [hhalo, RowBounds.bottomHalo]
    omega

theorem Built.vars_ordered (h : Built target s m plan design) :
    (ordered s m).map (·.var) = s.inputVars := by
  have hgen : ∀ vars : List String, (∀ v ∈ vars, v ∈ s.inputVars) →
      (vars.filterMap (Ordered.get? · m)).map (·.var) = vars := by
    intro vars
    induction vars with
    | nil => intro _; rfl
    | cons v vars ih =>
      intro hsub
      obtain ⟨b, -, hget, hvar, -⟩ := h.exists_buffer (hsub v List.mem_cons_self)
      simp only [List.filterMap_cons, hget, List.map_cons, hvar]
      rw [ih fun v hv => hsub v (List.mem_cons_of_mem _ hv)]
  exact hgen s.inputVars fun _ hv => hv

theorem Built.placed (h : Built target s m plan design) (hb : b ∈ ordered s m) :
    Placed target s plan b := by
  obtain ⟨v, hv, hget⟩ := List.mem_filterMap.1 hb
  obtain ⟨b', -, hget', -, -, hplaced⟩ := h.exists_buffer hv
  cases hget.symm.trans hget'
  exact hplaced

/-- Feeds of different variables have different endpoints. -/
theorem endpoint_inj {range : StageRange} {iterated v v' : String} {rowWords : Nat}
    (h : (feed plan range v iterated rowWords).endpoint =
      (feed plan range v' iterated rowWords).endpoint) : v = v' := by
  unfold feed at h
  split at h <;> split at h
  · cases h
    rfl
  · cases h
  · cases h
  · next h1 h2 =>
    rw [not_or, not_not] at h1 h2
    rw [h1.2, h2.2]

theorem Built.nodup_endpoints (h : Built target s m plan design) (hnodup : s.inputVars.Nodup)
    (range : StageRange) : ((ordered s m).map fun b =>
      (feed plan range b.var s.iteratedVar (s.gridCols / target.lanes)).endpoint).Nodup := by
  have hmap := List.Nodup.map (f := fun v =>
    (feed plan range v s.iteratedVar (s.gridCols / target.lanes)).endpoint)
    (fun v v' => endpoint_inj) hnodup
  rwa [← h.vars_ordered, List.map_map] at hmap

theorem Placed.rowWords_pos (hb : Placed target s plan b) : 0 < b.rowWords :=
  hb.laid.top_blocks_pos.trans_le
    (hb.fits _ (hb.laid.mem_blockCount (Int.le_refl _) hb.laid.top_le_bottom))

/-- A buffer can be filled only if the center row of its feed is a 64-bit number. -/
theorem Placed.signed_eq (hb : Placed target s plan b) {f : Feed} {ops : List InitOp}
    (hinit : b.init f = .ok ops) {rows : Nat} (hrows : f.centerRow + plan.halo.bottom < rows)
    (hlt : rows < 2 ^ 64) : Word64.signed f.centerRow = f.centerRow := by
  have htop := LineBuffer.top_nonneg_of_init hinit
  have hle := hb.laid.top_le_bottom
  have hbot := hb.bottom_le
  unfold Word64.signed at htop ⊢
  omega

/-- A feed that ends below the last row of the footprint. -/
theorem Placed.firstWord_le (hb : Placed target s plan b) {f : Feed}
    (hsigned : Word64.signed f.centerRow = f.centerRow)
    (htop : 0 ≤ Word64.signed f.centerRow + b.topRow) {rows : Nat}
    (hrows : f.centerRow + plan.halo.bottom < rows) (hwords : f.words = rows * b.rowWords) :
    b.firstWord f ≤ f.words := by
  have hle := hb.laid.top_le_bottom
  have hbot := hb.bottom_le
  have hfit := hb.fits _ (hb.laid.mem_blockCount hle (Int.le_refl _))
  have hrow : (Word64.signed f.centerRow + b.bottomRow).toNat + 1 ≤ rows := by omega
  calc b.firstWord f ≤ ((Word64.signed f.centerRow + b.bottomRow).toNat + 1) * b.rowWords := by
        rw [LineBuffer.firstWord, LineBuffer.rowStart, Nat.add_mul, Nat.one_mul]
        exact Nat.add_le_add_left hfit _
    _ ≤ f.words := hwords ▸ Nat.mul_le_mul_right _ hrow

end Placing

end Generate

/-- The numbers of a design fit into 64-bit words: the bits of a word, which lanes are read from in
two's complement, and the elements of a buffer. -/
structure Design.InWords (design : Design) : Prop where
  wordBits : design.header.wordBits ≤ 2 ^ 63
  elements : (design.header.partRows + design.host.haloRows) * design.header.gridCols < 2 ^ 64

namespace Generate

/-- A design whose kernels can run. -/
structure Runnable (target : Accelerator) (s : Stencil) (m : List (String × LineBuffer))
    (plan : Plan) (design : Design) : Prop extends Built target s m plan design where
  wellFormed : s.WellFormed
  inWords : design.InWords
  narrow : ∀ b ∈ design.buffers, b.Narrow

section Runnable

variable {m : List (String × LineBuffer)} {plan : Plan} {design : Design}

/-- The line buffer of an input, within the halo. -/
structure Sits (target : Accelerator) (s : Stencil) (plan : Plan) (b : LineBuffer) : Prop extends
    BufferOf target s (forward? target s) b.var b, Placed target s plan b where
  narrow : b.Narrow

namespace Runnable

theorem exists_buffer (h : Runnable target s m plan design) (hv : var ∈ s.inputVars) :
    ∃ b, Ordered.get? var m = some b ∧ b.var = var ∧ b ∈ ordered s m ∧ Sits target s plan b := by
  obtain ⟨b, hb, hget, rfl, hmem, hplaced⟩ := h.toBuilt.exists_buffer hv
  have hbits := h.inWords.wordBits
  rw [h.header] at hbits
  have hof := bufferOf_of_buffer h.valid hbits hb
  exact ⟨b, hget, rfl, hmem, { hof, hplaced with narrow := h.narrow b (h.buffers ▸ hmem) }⟩

end Runnable

end Runnable

end Generate

end GridSweep
