import GridSweep.Proofs.LineBuffer.Flow
import GridSweep.Proofs.Names
import GridSweep.Proofs.Ordered

/-!
# The layout of a line buffer

The rows of a line buffer are contiguous: from the top row to the bottom row, none is left out.
`Laid b` collects what every synthesized buffer satisfies: its rows are
contiguous, the top and the bottom row have a block, and a row has at most one popped register,
which stands in front of a block.
-/

namespace GridSweep

/-! ## Rows in order -/

/-- Rows that follow each other from `r` on. -/
def Contiguous : Int → List (Int × Nat) → Prop
  | _, [] => True
  | r, p :: below => p.1 = r ∧ Contiguous (r + 1) below

theorem Contiguous.append {l l' : List (Int × Nat)} :
    ∀ {r : Int}, Contiguous r l → Contiguous (r + l.length) l' → Contiguous r (l ++ l') := by
  induction l with
  | nil => intro r _ h'; simpa using h'
  | cons p l ih =>
    intro r h h'
    refine ⟨h.1, ih h.2 ?_⟩
    simpa [Int.add_assoc, Int.add_comm 1] using h'

theorem Contiguous.mem_iff {l : List (Int × Nat)} :
    ∀ {r : Int}, Contiguous r l → ∀ x, (∃ k, (x, k) ∈ l) ↔ r ≤ x ∧ x < r + l.length := by
  induction l with
  | nil => intro r _ x; simp
  | cons p l ih =>
    intro r h x
    have hl := ih h.2 x
    obtain ⟨h1, -⟩ := h
    constructor
    · rintro ⟨k, hk⟩
      rcases List.mem_cons.1 hk with heq | hk
      · simp only [← heq] at h1
        simp only [List.length_cons, h1]
        omega
      · have := hl.1 ⟨k, hk⟩
        simp only [List.length_cons]
        omega
    · intro hx
      by_cases hxr : x = r
      · exact ⟨p.2, by rw [hxr, ← h1]; exact List.mem_cons_self⟩
      · simp only [List.length_cons] at hx
        obtain ⟨k, hk⟩ := hl.2 (by omega)
        exact ⟨k, List.mem_cons_of_mem _ hk⟩

theorem Contiguous.ascending {l : List (Int × Nat)} :
    ∀ {r : Int}, Contiguous r l → Ascending l := by
  induction l with
  | nil => intro _ _; exact List.Pairwise.nil
  | cons p l ih =>
    intro r h
    refine List.pairwise_cons.2 ⟨fun q hq => ?_, ih h.2⟩
    have := (h.2.mem_iff q.1).1 ⟨q.2, hq⟩
    rw [h.1]
    omega

namespace LineBuffer

theorem contiguous_rowRange (top bottom : Int) :
    Contiguous top ((rowRange top bottom).map (·, 0)) := by
  unfold rowRange
  generalize (bottom - top + 1).toNat = n
  induction n generalizing top with
  | zero => trivial
  | succ n ih =>
    rw [List.range_succ_eq_map]
    refine ⟨by simp, ?_⟩
    have := ih (top + 1)
    simpa [Function.comp_def, Int.add_assoc, Int.add_comm 1] using this

theorem contiguous_fillRows {l : List (Int × Nat)} (h : Ascending l) :
    ∀ p ∈ l.head?, Contiguous p.1 (fillRows l) := by
  induction l with
  | nil => simp
  | cons p l ih =>
    intro q hq
    obtain rfl : p = q := by simpa using hq
    cases l with
    | nil => exact ⟨rfl, trivial⟩
    | cons next rest =>
      obtain ⟨hlt, hrest⟩ := List.pairwise_cons.1 h
      have hnext := hlt next List.mem_cons_self
      refine ⟨rfl, (contiguous_rowRange _ _).append ?_⟩
      have hlen : p.1 + 1 + ((rowRange (p.1 + 1) (next.1 - 1)).map
          fun x => (x, 0)).length = next.1 := by
        simp only [rowRange, List.length_map, List.length_range]
        omega
      rw [hlen]
      exact ih hrest next (by simp)

/-- Contiguous rows have no gaps to fill. -/
theorem fillRows_of_contiguous {l : List (Int × Nat)} :
    ∀ {r : Int}, Contiguous r l → fillRows l = l := by
  induction l with
  | nil => intro _ _; rfl
  | cons p l ih =>
    intro r h
    cases l with
    | nil => rfl
    | cons next rest =>
      have hnone : rowRange (p.1 + 1) (next.1 - 1) = [] := by
        simp only [rowRange, h.1, h.2.1, show r + 1 - 1 - (r + 1) + 1 = 0 by omega]
        rfl
      simp only [fillRows]
      rw [hnone, ih h.2]
      rfl

theorem head?_fillRows (l : List (Int × Nat)) : (fillRows l).head? = l.head? := by
  unfold fillRows
  split <;> rfl

theorem getLast?_fillRows (l : List (Int × Nat)) : (fillRows l).getLast? = l.getLast? := by
  induction l with
  | nil => rfl
  | cons p l ih =>
    cases l with
    | nil => rfl
    | cons next rest =>
      have hne : fillRows (next :: rest) ≠ [] := by
        intro h
        simpa [h] using head?_fillRows (next :: rest)
      simp only [fillRows, List.getLast?_cons_cons, ← ih]
      rw [← List.cons_append, List.getLast?_append_of_ne_nil _ hne]

theorem mem_fillRows {l : List (Int × Nat)} {p : Int × Nat} (h : p ∈ l) : p ∈ fillRows l := by
  induction l with
  | nil => cases h
  | cons q l ih =>
    cases l with
    | nil => exact h
    | cons next rest =>
      rcases List.mem_cons.1 h with rfl | h
      · exact List.mem_cons_self
      · exact List.mem_cons_of_mem _ (List.mem_append_right _ (ih h))

/-! ## Synthesized buffers -/

/-- What holds of every synthesized buffer. -/
structure Laid (b : LineBuffer) : Prop where
  nonempty : b.blockCount ≠ []
  contiguous : Contiguous b.topRow b.blockCount
  flow_eq : b.flow = b.flowOf b.blockCount
  popped_eq : b.popped = b.buildPopped
  top_pos : ∀ p ∈ b.blockCount.head?, 0 < p.2
  bottom_pos : ∀ p ∈ b.blockCount.getLast?, 0 < p.2
  pops_ascending : Ascending b.popCount
  pops_le_one : ∀ p ∈ b.popCount, p.2 ≤ 1
  pops_blocks : ∀ p ∈ b.popCount, ∃ k, (p.1, k + 1) ∈ b.blockCount

theorem blocksFor_eq_ok {u : Int} {cols : List Int} {blocks : Nat}
    (h : blocksFor u cols = .ok blocks) :
    blocks = (max (ceilDiv (cols.max?.getD 0) u + 1) 1).toNat ∧
      0 < blocks ∧ blocks < 0x8000000000000000 := by
  obtain ⟨count, hcount, h⟩ := bind_eq_ok.1 h
  obtain ⟨rfl, -, hlt⟩ := Word64.checked_eq_ok hcount
  cases h
  exact ⟨rfl, by omega, by omega⟩

/-- The counts of a row, from the columns that it reads. -/
theorem countRow_eq_ok {var : String} {u : Int} {row : Int × List Int} {c : RowCount}
    (h : countRow var u row = .ok c) :
    c.row = row.1 ∧ blocksFor u row.2 = .ok c.blocks ∧ popsFor? u row.2 = .ok c.pops ∧
      ∀ pops ∈ c.pops, pops ≤ 1 := by
  obtain ⟨blocks, hblocks, h⟩ := bind_eq_ok.1 h
  obtain ⟨pops, hpops, h⟩ := bind_eq_ok.1 h
  split at h
  · cases h
  next hany =>
  cases h
  refine ⟨rfl, hblocks, hpops, fun count hcount => ?_⟩
  obtain rfl : pops = some count := hcount
  simpa using hany

/-- Rows in order have their counts in order. -/
theorem counts_pairwise {var : String} {u : Int} {rows : RowRefs} {counts : List RowCount}
    (hr : Ascending rows) (h : List.Forall₂ (fun p c => countRow var u p = .ok c) rows counts) :
    counts.Pairwise fun c d => c.row < d.row := by
  induction h with
  | nil => exact .nil
  | cons hp hps ih =>
    obtain ⟨hlt, hrest⟩ := List.pairwise_cons.1 hr
    refine List.pairwise_cons.2 ⟨fun d hd => ?_, ih hrest⟩
    obtain ⟨q, hq, hqd⟩ := exists_left_of_forall₂ hps hd
    rw [(countRow_eq_ok hp).1, (countRow_eq_ok hqd).1]
    exact hlt q hq

theorem mem_popCounts {counts : List RowCount} {p : Int × Nat} :
    p ∈ popCounts counts ↔ ∃ c ∈ counts, c.row = p.1 ∧ c.pops = some p.2 := by
  obtain ⟨row, pops⟩ := p
  simp only [popCounts, List.mem_filterMap, Option.map_eq_some_iff, Prod.mk.injEq]
  constructor
  · rintro ⟨c, hc, pops, hpops, rfl, rfl⟩
    exact ⟨c, hc, rfl, hpops⟩
  · rintro ⟨c, hc, rfl, hpops⟩
    exact ⟨c, hc, pops, hpops, rfl, rfl⟩

theorem flowOf_congr {b b' : LineBuffer} (hv : b.var = b'.var) (hw : b.rowWords = b'.rowWords)
    (l : List (Int × Nat)) : b.flowOf l = b'.flowOf l := by
  have hb : ∀ row k, b.blockElements row k = b'.blockElements row k := by
    simp [blockElements, blockName, line, hv]
  fun_induction flowOf b l with
  | case1 => rfl
  | case2 row k => exact hb row k
  | case3 row k below hne ih =>
    rw [flowOf.eq_3 b' row k below hne, ih, hb]
    simp [line, queueDepth, hv, hw]

/-- A synthesized buffer, field by field. -/
theorem synthesize_eq {var : String} {rows : RowRefs} {target : Accelerator} {gridCols : Nat}
    {b : LineBuffer} (h : synthesize var rows target gridCols = .ok b) :
    rows ≠ [] ∧ target.lanes ≠ 0 ∧ Word64.signed target.unroll ≠ 0 ∧ b.var = var ∧ b.rows = rows ∧
      b.unroll = target.unroll ∧ b.rowWords = gridCols / target.lanes ∧
      b.flow = b.buildFlow ∧ b.popped = b.buildPopped ∧
      ∃ counts, rows.mapM (countRow var (Word64.signed target.unroll)) = .ok counts ∧
        b.blockCount = blockCounts counts ∧ b.popCount = popCounts counts := by
  unfold synthesize at h
  split at h
  · cases h
  · dsimp only at h
    split at h
    · cases h
    next hne =>
    obtain ⟨counts, hcounts, h⟩ := bind_eq_ok.1 h
    cases h
    rw [not_or] at hne
    refine ⟨by simp, hne.1, hne.2, rfl, rfl, rfl, rfl, ?_, rfl, counts, hcounts, rfl, rfl⟩
    apply flowOf_congr <;> rfl

theorem laid_of_synthesize {var : String} {rows : RowRefs} {target : Accelerator} {gridCols : Nat}
    {b : LineBuffer} (hr : Ascending rows) (h : synthesize var rows target gridCols = .ok b) :
    b.Laid := by
  obtain ⟨hne, -, -, -, -, -, -, hflow, hpopped, counts, hcounts, hblocks, hpops⟩ :=
    synthesize_eq h
  rw [mapM_eq_ok_iff] at hcounts
  have hrows := counts_pairwise hr hcounts
  have hspec : ∀ c ∈ counts, 0 < c.blocks ∧ ∀ pops ∈ c.pops, pops ≤ 1 := by
    intro c hc
    obtain ⟨p, -, hp⟩ := exists_left_of_forall₂ hcounts hc
    obtain ⟨-, hblocks, -, hle⟩ := countRow_eq_ok hp
    exact ⟨(blocksFor_eq_ok hblocks).2.1, hle⟩
  have hasc : Ascending (counts.map fun c => (c.row, c.blocks)) := List.pairwise_map.2 hrows
  have hhead : b.blockCount.head? = counts.head?.map fun c => (c.row, c.blocks) := by
    rw [hblocks, blockCounts, head?_fillRows, List.head?_map]
  have hlast : b.blockCount.getLast? = counts.getLast?.map fun c => (c.row, c.blocks) := by
    rw [hblocks, blockCounts, getLast?_fillRows, List.getLast?_map]
  obtain ⟨c, rest, rfl⟩ : ∃ c rest, counts = c :: rest := by
    refine List.exists_cons_of_ne_nil fun hnil => hne ?_
    rwa [hnil, List.forall₂_nil_right_iff] at hcounts
  have hcont : Contiguous b.topRow b.blockCount := by
    have htop : b.topRow = c.row := by simp [topRow, hhead]
    rw [htop, hblocks]
    exact contiguous_fillRows hasc _ rfl
  refine ⟨?_, hcont, ?_, hpopped, ?_, ?_, ?_, fun p hp => ?_, fun p hp => ?_⟩
  · intro hnil
    simp [hnil] at hhead
  · rw [hflow, buildFlow, allRows, fillRows_of_contiguous hcont]
  · intro p hp
    rw [hhead, Option.mem_def, Option.map_eq_some_iff] at hp
    obtain ⟨d, hd, rfl⟩ := hp
    exact (hspec d (List.mem_of_mem_head? hd)).1
  · intro p hp
    rw [hlast, Option.mem_def, Option.map_eq_some_iff] at hp
    obtain ⟨d, hd, rfl⟩ := hp
    exact (hspec d (List.mem_of_mem_getLast? hd)).1
  · rw [hpops]
    refine List.Pairwise.filterMap _ (fun d e hde p hp q hq => ?_) hrows
    obtain ⟨-, -, rfl⟩ := Option.map_eq_some_iff.1 hp
    obtain ⟨-, -, rfl⟩ := Option.map_eq_some_iff.1 hq
    exact hde
  · rw [hpops, mem_popCounts] at hp
    obtain ⟨d, hd, -, hsome⟩ := hp
    exact (hspec d hd).2 _ hsome
  · rw [hpops, mem_popCounts] at hp
    obtain ⟨d, hd, hrow, -⟩ := hp
    refine ⟨d.blocks - 1, ?_⟩
    rw [Nat.sub_add_cancel (hspec d hd).1, hblocks, ← hrow]
    exact mem_fillRows (List.mem_map.2 ⟨d, hd, rfl⟩)

namespace Laid

variable {b : LineBuffer}

theorem allRows_eq (h : b.Laid) : b.allRows = b.blockCount := fillRows_of_contiguous h.contiguous

theorem blocks_eq (h : b.Laid) {r : Int} {k : Nat} (hm : (r, k) ∈ b.blockCount) :
    b.blocks r = k := by
  simp [blocks, h.contiguous.ascending.get? hm]

/-- The bottom row comes after all rows above it. -/
theorem bottomRow_eq (h : b.Laid) : b.bottomRow = b.topRow + (b.blockCount.length - 1 : Nat) := by
  have hl : ∀ (l : List (Int × Nat)) (r : Int), Contiguous r l → ∀ p ∈ l.getLast?,
      p.1 = r + (l.length - 1 : Nat) := by
    intro l
    induction l with
    | nil => simp
    | cons q l ih =>
      intro r hc p hp
      cases l with
      | nil =>
        obtain rfl : q = p := by simpa using hp
        simp [hc.1]
      | cons q' l =>
        rw [List.getLast?_cons_cons] at hp
        have := ih (r + 1) hc.2 p hp
        simp only [List.length_cons] at this ⊢
        omega
  have hlast := List.getLast?_eq_some_getLast h.nonempty
  simp only [bottomRow, hlast, Option.map_some, Option.getD_some]
  exact hl _ _ h.contiguous _ hlast

theorem mem_blockCount (h : b.Laid) {r : Int} (htop : b.topRow ≤ r) (hbot : r ≤ b.bottomRow) :
    (r, b.blocks r) ∈ b.blockCount := by
  have hpos := List.length_pos_iff.2 h.nonempty
  have heq := h.bottomRow_eq
  obtain ⟨k, hk⟩ := (h.contiguous.mem_iff r).2 ⟨htop, by omega⟩
  rwa [h.blocks_eq hk]

theorem blocks_eq_zero (h : b.Laid) {r : Int} (hr : r < b.topRow ∨ b.bottomRow < r) :
    b.blocks r = 0 := by
  have hpos := List.length_pos_iff.2 h.nonempty
  have heq := h.bottomRow_eq
  unfold blocks
  cases hg : Ordered.get? r b.blockCount with
  | none => rfl
  | some k =>
    have := (h.contiguous.mem_iff r).1 ⟨k, mem_of_get? hg⟩
    omega

end Laid

/-! ## Names of the elements -/

/-- The parts of the elements of rows. -/
def partsOf : List (Int × Nat) → List Part
  | [] => []
  | [(row, k)] => (List.range k).map (.block row)
  | (row, k) :: below => (List.range k).map (.block row) ++ .line row :: partsOf below

def poppedParts (pops : List (Int × Nat)) : List Part :=
  pops.flatMap fun p => (List.range p.2).map (.popped p.1)

theorem namesOf_blockElements (b : LineBuffer) (row : Int) (k : Nat) :
    namesOf (b.blockElements row k) = ((List.range k).map (.block row)).map b.partName := by
  simp [namesOf, blockElements, partName, Function.comp_def]

theorem namesOf_flowOf (b : LineBuffer) (l : List (Int × Nat)) :
    namesOf (b.flowOf l) = (partsOf l).map b.partName := by
  fun_induction flowOf b l with
  | case1 => rfl
  | case2 row k => exact namesOf_blockElements b row k
  | case3 row k below hne ih =>
    rw [partsOf.eq_3 row k below hne, List.map_append, List.map_cons, ← ih,
      ← namesOf_blockElements]
    simp [namesOf, partName]

theorem namesOf_buildPopped (b : LineBuffer) :
    namesOf b.buildPopped = (poppedParts b.popCount).map b.partName := by
  simp [namesOf, buildPopped, poppedParts, List.map_flatMap, partName, Function.comp_def]

theorem row_of_mem_partsOf {l : List (Int × Nat)} {p : Part} (h : p ∈ partsOf l) :
    ∃ k, (p.row, k) ∈ l := by
  fun_induction partsOf l with
  | case1 => cases h
  | case2 row k =>
    obtain ⟨i, -, rfl⟩ := List.mem_map.1 h
    exact ⟨k, List.mem_singleton.2 rfl⟩
  | case3 row k below hne ih =>
    rcases List.mem_append.1 h with h | h
    · obtain ⟨i, -, rfl⟩ := List.mem_map.1 h
      exact ⟨k, List.mem_cons_self⟩
    · rcases List.mem_cons.1 h with rfl | h
      · exact ⟨k, List.mem_cons_self⟩
      · obtain ⟨j, hj⟩ := ih h
        exact ⟨j, List.mem_cons_of_mem _ hj⟩

theorem nodup_blockParts (row : Int) (k : Nat) : ((List.range k).map (Part.block row)).Nodup :=
  List.nodup_range.map fun i j h => by simpa using h

theorem nodup_partsOf {l : List (Int × Nat)} (h : Ascending l) : (partsOf l).Nodup := by
  fun_induction partsOf l with
  | case1 => exact List.nodup_nil
  | case2 row k => exact nodup_blockParts row k
  | case3 row k below hne ih =>
    obtain ⟨hlt, hbelow⟩ := List.pairwise_cons.1 h
    -- parts of the rows below have other rows
    have hoff : ∀ p ∈ partsOf below, p.row ≠ row := by
      intro p hp
      obtain ⟨j, hj⟩ := row_of_mem_partsOf hp
      exact Int.ne_of_gt (hlt _ hj)
    refine (nodup_blockParts row k).append (List.nodup_cons.2 ⟨?_, ih hbelow⟩) ?_
    · intro hmem
      exact hoff _ hmem rfl
    · intro p hp hq
      obtain ⟨i, -, rfl⟩ := List.mem_map.1 hp
      rcases List.mem_cons.1 hq with hq | hq
      · cases hq
      · exact hoff _ hq rfl

theorem nodup_poppedParts {l : List (Int × Nat)} (h : Ascending l) : (poppedParts l).Nodup := by
  induction l with
  | nil => exact List.nodup_nil
  | cons p l ih =>
    obtain ⟨hlt, hrest⟩ := List.pairwise_cons.1 h
    refine List.Nodup.append (List.nodup_range.map fun i j h => by simpa using h) (ih hrest) ?_
    intro q hq hq'
    obtain ⟨i, -, rfl⟩ := List.mem_map.1 hq
    obtain ⟨p', hp', hq'⟩ := List.mem_flatMap.1 hq'
    obtain ⟨j, -, heq⟩ := List.mem_map.1 hq'
    have := hlt p' hp'
    injection heq
    omega

theorem poppedParts_ne_partsOf {l l' : List (Int × Nat)} {p q : Part} (hp : p ∈ partsOf l)
    (hq : q ∈ poppedParts l') : p ≠ q := by
  obtain ⟨x, -, hq⟩ := List.mem_flatMap.1 hq
  obtain ⟨j, -, rfl⟩ := List.mem_map.1 hq
  fun_induction partsOf l with
  | case1 => cases hp
  | case2 row k =>
    obtain ⟨i, -, rfl⟩ := List.mem_map.1 hp
    exact fun h => by cases h
  | case3 row k below hne ih =>
    rcases List.mem_append.1 hp with hp | hp
    · obtain ⟨i, -, rfl⟩ := List.mem_map.1 hp
      exact fun h => by cases h
    · rcases List.mem_cons.1 hp with rfl | hp
      · exact fun h => by cases h
      · exact ih hp

namespace Laid

variable {b : LineBuffer}

theorem nodup_flow (h : b.Laid) : (namesOf b.flow).Nodup := by
  rw [h.flow_eq, namesOf_flowOf]
  exact (nodup_partsOf h.contiguous.ascending).map b.partName_injective

/-- A popped register is no element of the flow. -/
theorem popped_notMem_flow (h : b.Laid) {n : String} (hn : n ∈ namesOf b.popped) :
    n ∉ namesOf b.flow := by
  rw [h.popped_eq, namesOf_buildPopped] at hn
  rw [h.flow_eq, namesOf_flowOf]
  obtain ⟨q, hq, rfl⟩ := List.mem_map.1 hn
  intro hn
  obtain ⟨p, hp, heq⟩ := List.mem_map.1 hn
  exact poppedParts_ne_partsOf hp hq (b.partName_injective heq)

end Laid

/-- A grid row holds the blocks of every row. -/
def RowsFit (b : LineBuffer) : Prop := ∀ p ∈ b.blockCount, p.2 ≤ b.rowWords

theorem checkFits_ok {b : LineBuffer} {gridCols lanes : Nat}
    (h : b.checkFits gridCols lanes = .ok ()) :
    lanes ≠ 0 ∧ gridCols % lanes = 0 ∧ b.RowsFit := by
  unfold checkFits at h
  dsimp only at h
  split at h
  · cases h
  next hl =>
  split at h
  · cases h
  next hm =>
  split at h
  · cases h
  next hw =>
  refine ⟨hl, by simpa using hm, fun p hp => ?_⟩
  have hmem : p.2 ∈ b.blockCount.map (·.2) := List.mem_map_of_mem hp
  cases hmax : (b.blockCount.map (·.2)).max? with
  | none => simp [List.max?_eq_none_iff] at hmax; simp [hmax] at hp
  | some widest =>
    have := (List.max?_eq_some_iff.1 hmax).2 _ hmem
    simp only [hmax, Option.getD_some] at hw
    omega

end LineBuffer

end GridSweep
