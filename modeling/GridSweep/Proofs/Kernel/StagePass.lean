import GridSweep.Proofs.Kernel.Generated
import GridSweep.Proofs.Kernel.Passes

/-!
# A stage computes a pass

A stage reads the inputs from memory and the iterated variable from the stage before. The words of
its feeds are rows of the grids that a pass starts from, its lanes read the elements of the taps,
and what it stores are the elements of the next pass.
-/

namespace GridSweep

/-! ## Lanes and taps -/

section Values

variable {w : Nat} {x : Fed w} {m : Machine w} {u trips i k origin stop : Nat}
  {grid : Nat → BitVec 32} {r c : Int} {read : LaneRead}

end Values

/-! ## Feeds -/

/-- The word at an address after `n` passes. -/
def KernelCall.passWord (k : KernelCall) (w n a : Nat) : BitVec w :=
  packWord w k.header.widthFactor fun j => k.passes n (a * k.header.widthFactor + j)

namespace Generate

section Feeds

variable {target : Accelerator} {s : Stencil} {plan : Plan} {b : LineBuffer} {w n : Nat}
  {k : KernelCall} {memory : String → Nat → BitVec w}

/-- A call on memory contents. -/
structure Calls (k : KernelCall) (target : Accelerator) (s : Stencil) (plan : Plan)
    (memory : String → Nat → BitVec w) : Prop where
  header : k.header = headerFacts target s plan
  iterated : k.iterated = s.iteratedVar
  ports : k.ports = Generate.ports target s
  grid : ∀ v p, k.grid v p = element (memory v (p / target.lanes)) (p % target.lanes)

theorem Calls.validRows (hk : Calls k target s plan memory) (hn : n < plan.stageCount) :
    (rangeOf plan n).validRows = k.header.knownRows (n + 1) := by
  rw [hk.header]
  simp only [rangeOf, Plan.stageRange, HeaderFacts.knownRows, headerFacts, Halo.total]
  rw [Nat.add_sub_assoc (Nat.mul_le_mul_left _ (by omega)), ← Nat.mul_sub,
    show plan.stageCount - 1 - n = plan.stageCount - (n + 1) by omega]

theorem Calls.bufferRows (hk : Calls k target s plan memory) :
    plan.bufferRows = k.header.knownRows 0 := by
  rw [hk.header]
  rfl

/-- The feed of a variable in stage `n`. -/
theorem Calls.feed_eq (hk : Calls k target s plan memory) (hn : n < plan.stageCount) (var : String)
    (rowWords : Nat) :
    feed plan (rangeOf plan n) var s.iteratedVar rowWords =
      if n = 0 ∨ var ≠ k.iterated then
        ⟨.memory var, k.header.startRow (n + 1), k.header.knownRows 0 * rowWords⟩
      else ⟨.stream (Plan.channel (n - 1)), k.header.topAppend,
        k.header.knownRows n * rowWords⟩ := by
  rw [hk.iterated]
  by_cases hfrom : n = 0 ∨ var ≠ s.iteratedVar
  · rw [if_pos hfrom, feed_memory hfrom, hk.bufferRows, hk.header]
    rfl
  · rw [if_neg hfrom]
    obtain ⟨h0, hvar⟩ := not_or.1 hfrom
    obtain ⟨j, rfl⟩ := Nat.exists_eq_succ_of_ne_zero h0
    rw [not_not.1 hvar, feed_stream, hk.validRows (by omega), hk.header]
    rfl

/-- A line buffer with its feed in stage `n`. -/
def fedIn (target : Accelerator) (s : Stencil) (plan : Plan) (k : KernelCall)
    (memory : String → Nat → BitVec w) (n : Nat) (b : LineBuffer) : Fed w where
  buffer := b
  feed := feed plan (rangeOf plan n) b.var s.iteratedVar (s.gridCols / target.lanes)
  word a := if n = 0 ∨ b.var ≠ k.iterated then memory b.var a
    else k.passWord w n (k.header.startRow n * (s.gridCols / target.lanes) + a)
  avail := (feed plan (rangeOf plan n) b.var s.iteratedVar (s.gridCols / target.lanes)).words

end Feeds

/-! ## Ports -/

section Ports

variable {target : Accelerator} {s : Stencil} {m : List (String × LineBuffer)} {plan : Plan}
  {design : Design} {t t' : Tap} {b : LineBuffer}

/-- A port has the name of its offset, and its line buffer has the offset. -/
theorem Runnable.port (h : Runnable target s m plan design) (ht : t ∈ ports target s)
    (hget : Ordered.get? t.var m = some b) :
    t.name = Offset.tapName t.var t.offset ∧ t.offset = [t.offset.row, t.offset.col] ∧
      RowRefs.Has b.rows t.offset.row t.offset.col := by
  obtain ⟨b', hget', hvar, -, hsits⟩ :=
    h.exists_buffer ((get?_buffers h.lineBuffers t.var).2 b hget).1
  cases hget.symm.trans hget'
  rcases List.mem_append.1 ht with ht | ht
  · obtain ⟨⟨v, os⟩, hrefs, ht⟩ := List.mem_flatMap.1 ht
    obtain ⟨o, ho, rfl⟩ := List.mem_map.1 ht
    obtain ⟨offsets, hoffsets, hall⟩ := hsits.offsets
    rw [hvar] at hoffsets
    cases hoffsets.symm.trans (h.wellFormed.refs_ascending.get? hrefs)
    exact ⟨rfl, hall o ho⟩
  · split at ht
    · next hextra =>
      obtain rfl := List.mem_singleton.1 ht
      exact ⟨rfl, rfl, hsits.extra hvar hextra⟩
    · cases ht

end Ports

/-! ## Stages -/

section Stages

variable {target : Accelerator} {s : Stencil} {m : List (String × LineBuffer)} {plan : Plan}
  {design : Design} {w n : Nat} {k : KernelCall} {memory : String → Nat → BitVec w}
  {point : PointFunction} {stage : Stage}

theorem Runnable.apart (h : Runnable target s m plan design) :
    Fed.Apart ((ordered s m).map (fedIn target s plan k memory n)) := by
  constructor
  · rw [List.map_map]
    exact h.vars_ordered ▸ h.wellFormed.inputs_nodup
  · rw [List.map_map]
    exact h.nodup_endpoints h.wellFormed.inputs_nodup (rangeOf plan n)

end Stages

end Generate

end GridSweep
