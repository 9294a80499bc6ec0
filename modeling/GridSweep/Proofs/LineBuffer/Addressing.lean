import GridSweep.Proofs.LineBuffer.LaneReads

/-!
# Where lanes find their elements

A buffer can be laid out exactly if its footprint has a row and its lanes look back by at most one
word. Then every offset of the footprint has a lane read, and no other offset has one. Lane `k` of
column `c` is sent to the word `(k + c) / u` places after the current one, and to the bits of
element `(k + c) % u` of that word.
-/

namespace GridSweep.LineBuffer

variable {b : LineBuffer} {var : String} {rows : RowRefs} {target : Accelerator} {gridCols u : Nat}
  {r : Int} {cols : List Int}

/-! ## Footprints that can be laid out -/

theorem block_mem_flowOf {l : List (Int × Nat)} {n i : Nat} (h : (r, n) ∈ l) (hi : i < n) :
    ⟨b.blockName r i, r, .block i⟩ ∈ b.flowOf l := by
  have hblock : ⟨b.blockName r i, r, .block i⟩ ∈ b.blockElements r n :=
    List.mem_map_of_mem (List.mem_range.2 hi)
  fun_induction flowOf b l with
  | case1 => cases h
  | case2 row k =>
    cases List.mem_singleton.1 h
    exact hblock
  | case3 row k below hne ih =>
    rcases List.mem_cons.1 h with heq | h
    · cases heq
      exact List.mem_append_left _ hblock
    · exact List.mem_append_right _ (List.mem_cons_of_mem _ (ih h))

/-- The register `name` is declared for the word `q` places after the current one of a row: a block,
or the only popped register of the row. -/
def Keeps (b : LineBuffer) (row q : Int) (name : String) : Prop :=
  (0 ≤ q ∧ name = b.blockName row q.toNat ∧ ⟨name, row, .block q.toNat⟩ ∈ b.storage) ∨
    (q = -1 ∧ name = b.poppedName row 0 ∧ b.pops row = 1 ∧ ⟨name, row, .popped 0⟩ ∈ b.storage)

theorem HasWord.keeps (hl : b.Laid) {q : Int} (h : b.HasWord r q) :
    b.Keeps r q (b.wordName r q) := by
  obtain ⟨htop, hbot, hq⟩ := h.row_mem hl
  unfold wordName
  rcases h with ⟨hq0, hlt⟩ | ⟨rfl, hr⟩
  · rw [if_pos hq0]
    refine .inl ⟨hq0, rfl, List.mem_append_left _ ?_⟩
    rw [hl.flow_eq]
    exact block_mem_flowOf (hl.mem_blockCount htop hbot) (by omega)
  · rw [if_neg (by omega)]
    obtain ⟨p, hp, rfl⟩ := List.mem_map.1 hr
    obtain ⟨hp, hpos⟩ := List.mem_filter.1 hp
    have hone : p.2 = 1 := by
      have := hl.pops_le_one p hp
      have := of_decide_eq_true hpos
      omega
    refine .inr ⟨rfl, rfl, ?_, List.mem_append_right _ ?_⟩
    · simp [pops, hl.pops_ascending.get? hp, hone]
    · rw [hl.popped_eq]
      exact List.mem_flatMap.2 ⟨p, hp, List.mem_map_of_mem (List.mem_range.2 (by omega))⟩

end GridSweep.LineBuffer
