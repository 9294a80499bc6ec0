import GridSweep.Proofs.LineBuffer.Filling
import Mathlib.Tactic.Ring

/-!
# Stepping a line buffer

`Holds b val base s` says that the elements of a buffer hold the words `val base`, `val (base + 1)`
and so on. A loop step brings that to the next base: the window moves by one word. The words come
from the feed as long as it has some, and are zero after that, which `supplied` says.
-/

namespace GridSweep

namespace LineBuffer

variable {w : Nat} {b : LineBuffer} {feed : Feed} {m : Machine w} {word val : Nat → BitVec w}
  {avail base trips : Nat} {short : Prop} {s s' : Store w}

/-! ## Positions in the feed -/

theorem rowStart_add {row : Int} (h : 0 ≤ Word64.signed feed.centerRow + row) (n : Nat) :
    b.rowStart feed (row + n) = b.rowStart feed row + n * b.rowWords := by
  induction n with
  | zero => simp
  | succ n ih =>
    rw [show row + ((n + 1 : Nat) : Int) = row + n + 1 by omega, rowStart_succ (by omega), ih]
    ring

theorem span_eq (rowWords : Nat) {l : List (Int × Nat)} {p : Int × Nat} (h : p ∈ l.getLast?) :
    span rowWords l = (l.length - 1) * rowWords + p.2 := by
  induction l with
  | nil => cases h
  | cons q l ih =>
    cases l with
    | nil =>
      obtain rfl : q = p := by simpa using h
      simp [span]
    | cons next rest =>
      rw [List.getLast?_cons_cons] at h
      simp only [span, ih h, List.length_cons, Nat.add_sub_cancel]
      ring

/-- Steps that fetch a word. -/
def validSteps (b : LineBuffer) (feed : Feed) (trips : Nat) : Nat :=
  min trips (feed.words - b.firstWord feed)

/-- The words that pass through a buffer: those of the feed, then zeros. -/
def supplied (b : LineBuffer) (feed : Feed) (trips : Nat) (word : Nat → BitVec w) (a : Nat) :
    BitVec w :=
  if a < b.firstWord feed + b.validSteps feed trips then word a else 0

namespace Laid

theorem last_mem (hl : b.Laid) : (b.bottomRow, b.blocks b.bottomRow) ∈ b.blockCount.getLast? := by
  have hlast := List.getLast?_eq_some_getLast hl.nonempty
  have hmem : b.blockCount.getLast hl.nonempty ∈ b.blockCount := List.getLast_mem _
  have hrow : b.bottomRow = (b.blockCount.getLast hl.nonempty).1 := by simp [bottomRow, hlast]
  rw [hlast, hrow, hl.blocks_eq hmem]
  rfl

theorem top_blocks_pos (hl : b.Laid) : 0 < b.blocks b.topRow := by
  obtain ⟨p, rest, hcons⟩ := List.exists_cons_of_ne_nil hl.nonempty
  have htop : b.topRow = p.1 := by simp [topRow, hcons]
  rw [htop, hl.blocks_eq (k := p.2) (by simp [hcons])]
  exact hl.top_pos p (by simp [hcons])

/-- The first fetch follows the words of the buffer. -/
theorem start_add_span (hl : b.Laid) (h0 : 0 ≤ Word64.signed feed.centerRow + b.topRow) :
    b.rowStart feed b.topRow + span b.rowWords b.blockCount = b.firstWord feed := by
  rw [span_eq b.rowWords hl.last_mem, firstWord]
  conv_rhs => rw [hl.bottomRow_eq, rowStart_add h0]
  rw [← hl.bottomRow_eq]
  omega

theorem rowStart_eq (h0 : 0 ≤ Word64.signed feed.centerRow + b.topRow) {r : Int}
    (hr : b.topRow ≤ r) :
    b.rowStart feed r = b.rowStart feed b.topRow + (r - b.topRow).toNat * b.rowWords := by
  rw [← rowStart_add h0]
  congr 1
  omega

/-- The flow starts with a register. -/
theorem flow_eq_cons (hl : b.Laid) :
    ∃ rest, b.flow = ⟨b.blockName b.topRow 0, b.topRow, .block 0⟩ :: rest := by
  obtain ⟨⟨row, k⟩, below, hcons⟩ := List.exists_cons_of_ne_nil hl.nonempty
  have htop : b.topRow = row := by simp [topRow, hcons]
  obtain ⟨k, rfl⟩ := Nat.exists_eq_add_one.2 (hl.top_pos (row, k) (by simp [hcons]))
  have hblocks : b.blockElements row (k + 1) = ⟨b.blockName row 0, row, .block 0⟩ ::
      (List.range k).map fun i => ⟨b.blockName row (i + 1), row, .block (i + 1)⟩ := by
    simp [blockElements, List.range_succ_eq_map]
  rw [hl.flow_eq, hcons, htop]
  cases below with
  | nil => exact ⟨_, hblocks⟩
  | cons next rest =>
    simp only [flowOf, hblocks, List.cons_append]
    exact ⟨_, rfl⟩

/-- A step moves the flow and fetches a word, and can do nothing else. -/
theorem advance_eq_ok (hl : b.Laid) {ops : List AdvanceOp} (h : b.advance feed trips = .ok ops) :
    b.firstFetch feed = .ok (b.firstWord feed) ∧ ∃ last ∈ b.flow.getLast?,
      ops = b.delays ++ (shifts b.flow ++
        [.fetch last feed.endpoint (b.firstWord feed) (b.validSteps feed trips)]) := by
  obtain ⟨rest, hflow⟩ := hl.flow_eq_cons
  have hlast := List.getLast?_eq_some_getLast (show b.flow ≠ [] by simp [hflow])
  rw [advance, hlast] at h
  obtain ⟨first, hfirst, h⟩ := bind_eq_ok.1 h
  obtain rfl : first = b.firstWord feed := (address_eq_ok hfirst).1
  refine ⟨hfirst, _, hlast, (Except.ok.inj h).symm.trans ?_⟩
  rw [List.append_assoc]
  rfl

end Laid

/-- The flow holds consecutive words from `base` on, and every queue has room for one more. -/
structure Holds (b : LineBuffer) (val : Nat → BitVec w) (base : Nat) (s : Store w) : Prop where
  flow : b.flow.flatMap s.contents = (List.range' base (span b.rowWords b.blockCount)).map val
  level : ∀ e ∈ b.flow, s.Level e
  depth : ∀ e ∈ b.flow, ∀ d, e.kind = .queue d → s.depths e.name = d

/-- The words of blocks in a list of words. -/
theorem regs_of_contents {row : Int} {k : Nat}
    (h : (b.blockElements row k).flatMap s.contents = (List.range' base k).map val) {j : Nat}
    (hj : j < k) : s.regs (b.blockName row j) = val (base + j) := by
  rw [contents_blockElements, List.range'_eq_map_range, List.map_map] at h
  simpa using List.map_inj_left.1 h j (List.mem_range.2 hj)

theorem length_contents_queue {e : Element} {d : Nat} (hk : e.kind = .queue d) (hlev : s.Level e)
    (hd : s.depths e.name = d) : (s.contents e).length = d - 1 := by
  have hq : e.isQueue = true := by simp [Element.isQueue, hk]
  have := hlev hq
  simp only [Store.contents, if_pos hq]
  omega

/-- Every block holds the word of its place in the grid. -/
theorem regs_of_flowOf (l : List (Int × Nat)) :
    ∀ (r : Int) (base : Nat), Contiguous r l → (∀ p ∈ l, p.2 ≤ b.rowWords) →
      (∀ e ∈ b.flowOf l, s.Level e) →
      (∀ e ∈ b.flowOf l, ∀ d, e.kind = .queue d → s.depths e.name = d) →
      (b.flowOf l).flatMap s.contents = (List.range' base (span b.rowWords l)).map val →
      ∀ p ∈ l, ∀ j < p.2,
        s.regs (b.blockName p.1 j) = val (base + (p.1 - r).toNat * b.rowWords + j) := by
  induction l with
  | nil => simp
  | cons p l ih =>
    obtain ⟨row, k⟩ := p
    rintro r base ⟨rfl, hc⟩ hfit hlev hdepth hflat q hq j hj
    simp only at hc ⊢
    cases l with
    | nil =>
      obtain rfl : q = (row, k) := by simpa using hq
      simpa using regs_of_contents hflat hj
    | cons next rest =>
      have hk : k ≤ b.rowWords := hfit (row, k) List.mem_cons_self
      set below := next :: rest with hbelow
      have hflow : b.flowOf ((row, k) :: below) = b.blockElements row k ++
          ⟨b.line row, row, .queue (b.queueDepth k)⟩ :: b.flowOf below := by simp [hbelow, flowOf]
      rw [hflow] at hlev hdepth hflat
      have hlen := length_contents_queue (s := s) rfl
        (hlev ⟨b.line row, row, .queue (b.queueDepth k)⟩ (by simp)) (hdepth _ (by simp) _ rfl)
      have hsplit : List.range' base (span b.rowWords ((row, k) :: below)) =
          List.range' base k ++ (List.range' (base + k) (b.rowWords - k) ++
            List.range' (base + b.rowWords) (span b.rowWords below)) := by
        rw [show base + b.rowWords = base + k + (b.rowWords - k) by omega, List.range'_append_1,
          List.range'_append_1, hbelow, span]
        · congr 1
          omega
        · simp
      rw [hsplit, List.map_append, List.map_append, List.flatMap_append, List.flatMap_cons] at hflat
      obtain ⟨hblocks, hrest⟩ := List.append_inj hflat (by
        simp [contents_blockElements])
      obtain ⟨-, hrows⟩ := List.append_inj hrest (by
        rw [hlen, queueDepth]
        simp
        omega)
      rcases List.mem_cons.1 hq with rfl | hq
      · simpa using regs_of_contents hblocks hj
      · have hq' := (hc.mem_iff q.1).1 ⟨q.2, hq⟩
        rw [ih (row + 1) (base + b.rowWords) hc (fun p hp => hfit p (List.mem_cons_of_mem _ hp))
          (fun e he => hlev e (by simp [he])) (fun e he => hdepth e (by simp [he])) hrows q hq j hj]
        congr 1
        rw [show (q.1 - row).toNat = (q.1 - (row + 1)).toNat + 1 by omega]
        ring

theorem Holds.regs_block (hl : b.Laid) (hfit : b.RowsFit)
    (h : b.Holds val base s) {r : Int} {j : Nat} (hj : j < b.blocks r) :
    s.regs (b.blockName r j) = val (base + (r - b.topRow).toNat * b.rowWords + j) := by
  have hr : b.topRow ≤ r ∧ r ≤ b.bottomRow := by
    by_contra hout
    rw [hl.blocks_eq_zero (by omega)] at hj
    omega
  have hlev := h.level
  have hdepth := h.depth
  have hflat := h.flow
  rw [hl.flow_eq] at hlev hdepth hflat
  exact regs_of_flowOf b.blockCount b.topRow base hl.contiguous hfit hlev hdepth hflat
    (r, b.blocks r) (hl.mem_blockCount hr.1 hr.2) j hj

theorem Holds.of_within {names : List String} (h : b.Holds val base s)
    (hw : Store.Within names s s') (hoff : ∀ n ∈ names, n ∉ namesOf b.flow) :
    b.Holds val base s' := by
  have hne : ∀ e ∈ b.flow, e.name ∉ names := fun e he hn => hoff _ hn (name_mem_namesOf he)
  refine ⟨?_, fun e he => (hw.level_iff (hne e he)).2 (h.level e he), ?_⟩
  · rw [List.flatMap_congr fun e he => hw.contents_eq (hne e he)]
    exact h.flow
  · rw [hw.depths_eq]
    exact h.depth

/-! ## Queues that are never empty -/

/-- A grid row is wider than the blocks of every row above the bottom row, so that every queue has
words. -/
def Narrow (b : LineBuffer) : Prop := ∀ row < b.bottomRow, b.blocks row < b.rowWords

theorem narrow_of_blockCount (hpos : 0 < b.rowWords)
    (h : ∀ p ∈ b.blockCount, p.1 < b.bottomRow → p.2 < b.rowWords) : b.Narrow := by
  intro row hrow
  unfold blocks
  cases hg : Ordered.get? row b.blockCount with
  | none => exact hpos
  | some k => exact h (row, k) (mem_of_get? hg) hrow

/-- Every row above the last one has a queue. -/
theorem queue_of_mem_flowOf {l : List (Int × Nat)} {r : Int} (hc : Contiguous r l) {e : Element}
    (he : e ∈ b.flowOf l) (hq : e.isQueue) :
    ∃ k, (e.row, k) ∈ l ∧ e.row + 1 < r + l.length ∧
      e = ⟨b.line e.row, e.row, .queue (b.queueDepth k)⟩ := by
  fun_induction flowOf b l generalizing r with
  | case1 => cases he
  | case2 row k =>
    rw [isQueue_of_mem_blockElements he] at hq
    cases hq
  | case3 row k below hne ih =>
    obtain ⟨hrow, hc⟩ := hc
    simp only at hrow
    subst hrow
    rcases List.mem_append.1 he with he | he
    · rw [isQueue_of_mem_blockElements he] at hq
      cases hq
    rcases List.mem_cons.1 he with rfl | he
    · have hpos := List.length_pos_iff.2 hne
      refine ⟨k, List.mem_cons_self, ?_, rfl⟩
      simp only [List.length_cons]
      omega
    · obtain ⟨j, hj, hlt, heq⟩ := ih hc he
      refine ⟨j, List.mem_cons_of_mem _ hj, ?_, heq⟩
      simp only [List.length_cons]
      omega

theorem Laid.queue_of_mem_flow (hl : b.Laid) {e : Element} (he : e ∈ b.flow) (hq : e.isQueue) :
    b.topRow ≤ e.row ∧ e.row < b.bottomRow ∧
      e = ⟨b.line e.row, e.row, .queue (b.queueDepth (b.blocks e.row))⟩ := by
  rw [hl.flow_eq] at he
  obtain ⟨k, hk, hlt, heq⟩ := queue_of_mem_flowOf hl.contiguous he hq
  have hpos := List.length_pos_iff.2 hl.nonempty
  have hbot := hl.bottomRow_eq
  rw [hl.blocks_eq hk]
  exact ⟨((hl.contiguous.mem_iff _).1 ⟨k, hk⟩).1, by omega, heq⟩

/-- The words of a queue are the rest of its grid row. -/
theorem Holds.length_queue (hl : b.Laid) (h : b.Holds val base s) {e : Element} (he : e ∈ b.flow)
    (hq : e.isQueue) : (s.queues e.name).length = b.rowWords - b.blocks e.row := by
  obtain ⟨-, -, heq⟩ := hl.queue_of_mem_flow he hq
  have hkind : e.kind = .queue (b.queueDepth (b.blocks e.row)) := by rw [heq]
  have hlen := length_contents_queue hkind (h.level e he) (h.depth e he _ hkind)
  rw [Store.contents, if_pos hq, queueDepth] at hlen
  omega

theorem Holds.contents_ne_nil (hl : b.Laid) (hn : b.Narrow) (h : b.Holds val base s) {e : Element}
    (he : e ∈ b.flow) : s.contents e ≠ [] := by
  unfold Store.contents
  split
  · next hq =>
    have hlen := h.length_queue hl he hq
    have hlt := hn _ (hl.queue_of_mem_flow he hq).2.1
    intro hnil
    rw [hnil, List.length_nil] at hlen
    omega
  · simp

theorem Holds.fits (h : b.Holds val base s) {e : Element} (he : e ∈ b.flow) : s.Fits e :=
  fun hq => by
    have := h.level e he hq
    omega

/-! ## Popped registers -/

/-- The rows with a popped register. -/
def poppedRows (b : LineBuffer) : List Int := (b.popCount.filter (0 < ·.2)).map (·.1)

theorem Laid.delays_eq (hl : b.Laid) :
    b.delays = b.poppedRows.map fun r => .delay (b.poppedName r 0) (b.blockName r 0) := by
  have hle := hl.pops_le_one
  unfold delays poppedRows
  generalize b.popCount = l at hle ⊢
  induction l with
  | nil => rfl
  | cons p l ih =>
    have hrest := ih fun q hq => hle q (List.mem_cons_of_mem _ hq)
    obtain ⟨row, count⟩ := p
    have hcount : count = 0 ∨ count = 1 := by
      have := hle (row, count) List.mem_cons_self
      simp only at this
      omega
    rw [List.flatMap_cons, hrest]
    rcases hcount with rfl | rfl <;> simp

theorem Laid.poppedName_mem (hl : b.Laid) {r : Int} (hr : r ∈ b.poppedRows) :
    b.poppedName r 0 ∈ namesOf b.popped := by
  obtain ⟨p, hp, rfl⟩ := List.mem_map.1 hr
  obtain ⟨hp, hpos⟩ := List.mem_filter.1 hp
  rw [hl.popped_eq, namesOf_buildPopped]
  refine List.mem_map.2 ⟨.popped p.1 0, List.mem_flatMap.2 ⟨p, hp, ?_⟩, rfl⟩
  exact List.mem_map_of_mem (List.mem_range.2 (by simpa using hpos))

theorem Laid.delayed_notMem_flow (hl : b.Laid) {name : String}
    (h : name ∈ b.poppedRows.map fun r => b.poppedName r 0) : name ∉ namesOf b.flow := by
  obtain ⟨r, hr, rfl⟩ := List.mem_map.1 h
  exact hl.popped_notMem_flow (hl.poppedName_mem hr)

theorem poppedName_ne_blockName (b : LineBuffer) (r r' : Int) (i j : Nat) :
    b.poppedName r i ≠ b.blockName r' j := fun h => by
  have hp : Part.popped r i = Part.block r' j := b.partName_injective h
  cases hp

/-- The popped registers take over the first blocks of their rows. -/
theorem exec_delays (b : LineBuffer) (i : Nat) (rows : List Int) :
    ∀ m : Machine w, ∃ s,
      (rows.map fun r => AdvanceOp.delay (b.poppedName r 0) (b.blockName r 0)).foldlM
        (AdvanceOp.exec i) m = .ok { m with store := s } ∧
      (∀ r ∈ rows, s.regs (b.poppedName r 0) = m.store.regs (b.blockName r 0)) ∧
      Store.Within (rows.map fun r => b.poppedName r 0) m.store s := by
  induction rows with
  | nil => intro m; exact ⟨m.store, rfl, by simp, .refl ..⟩
  | cons r rows ih =>
    intro m
    have hset := Store.within_setReg m.store (b.poppedName r 0) (m.store.regs (b.blockName r 0))
    obtain ⟨s, hs, hregs, hw⟩ := ih { m with store := m.store.setReg _ _ }
    refine ⟨s, hs, ?_, ?_⟩
    · intro x hx
      by_cases hmem : x ∈ rows
      · rw [hregs x hmem]
        exact hset.regs_eq _ (by simpa using (poppedName_ne_blockName b r x 0 0).symm)
      · obtain rfl : x = r := by simpa [hmem] using hx
        rw [hw.regs_eq _ ?_]
        · exact Store.regs_setReg_self ..
        · intro h
          obtain ⟨y, hy, heq⟩ := List.mem_map.1 h
          have hp : Part.popped y 0 = Part.popped x 0 := b.partName_injective heq
          injection hp with hyx
          exact hmem (hyx ▸ hy)
    · exact (hset.mono (by simp)).trans (hw.mono (by simp))

/-! ## A step -/

/-- A buffer after `n` steps of a loop. -/
structure Running (b : LineBuffer) (feed : Feed) (trips : Nat) (word : Nat → BitVec w)
    (avail n : Nat) (m : Machine w) : Prop where
  holds : b.Holds (b.supplied feed trips word) (b.rowStart feed b.topRow + n) m.store
  popped : ∀ r ∈ b.poppedRows, m.store.regs (b.poppedName r 0) =
    if n = 0 then 0 else b.supplied feed trips word (b.rowStart feed r + n - 1)
  serves : m.supply.Serves feed.endpoint word avail
    (b.firstWord feed + min n (b.validSteps feed trips))

theorem span_pos (hl : b.Laid) : 0 < span b.rowWords b.blockCount := by
  have := hl.bottom_pos _ hl.last_mem
  rw [span_eq b.rowWords hl.last_mem]
  omega

/-- The shifts and the fetch of a step: the flow loses its first word and takes a new last one. -/
theorem Holds.put_last (hl : b.Laid) (hn : b.Narrow) (h : b.Holds val base m.store) {last : Element}
    (hlast : last ∈ b.flow.getLast?) (i : Nat) :
    ∃ s, (shifts b.flow).foldlM (AdvanceOp.exec i) m = .ok { m with store := s } ∧
      ∃ s', s.put last (val (base + span b.rowWords b.blockCount)) = .ok s' ∧
        b.Holds val (base + 1) s' ∧ Store.Within (namesOf b.flow) m.store s' := by
  obtain ⟨rest, hflow⟩ := hl.flow_eq_cons
  set t : Element := ⟨b.blockName b.topRow 0, b.topRow, .block 0⟩ with ht
  have hsub : ∀ e ∈ rest, e ∈ b.flow := fun e he => hflow ▸ List.mem_cons_of_mem _ he
  have hnd := hl.nodup_flow
  rw [hflow] at hnd hlast
  obtain ⟨s, hs, hput⟩ := exec_shifts (i := i) rest t m hnd (fun hq => by cases hq)
    fun e he => ⟨h.contents_ne_nil hl hn (hsub e he), h.fits (hsub e he)⟩
  obtain ⟨s', hs', hflat, -, hlen, hw⟩ :=
    hput last hlast (val (base + span b.rowWords b.blockCount))
  refine ⟨s, by rw [hflow]; exact hs, s', hs', ⟨?_, ?_, ?_⟩, by rwa [hflow]⟩
  · obtain ⟨n, hspan⟩ := Nat.exists_eq_add_one.2 (span_pos hl)
    have hold := h.flow
    rw [hflow, List.flatMap_cons, hspan, List.range'_succ, List.map_cons] at hold
    have hrest : rest.flatMap m.store.contents = (List.range' (base + 1) n).map val :=
      congrArg List.tail hold
    rw [hflow, hflat, hspan, hrest, show m.store.opened t = [] from rfl, List.nil_append,
      List.range'_1_concat, List.map_append]
    simp [Nat.add_right_comm, Nat.add_assoc]
  · intro e he
    rw [hflow] at he
    rcases List.mem_cons.1 he with rfl | he
    · intro hq
      cases hq
    · intro hq
      have hlev := h.level e (hsub e he) hq
      have := hlen e he
      simp only [Store.contents, if_pos hq] at this
      rw [this, hw.depths_eq]
      exact hlev
  · rw [hw.depths_eq]
    exact h.depth

/-- A step keeps a buffer running. -/
theorem Running.step (hl : b.Laid) (hfit : b.RowsFit) (hn : b.Narrow)
    (h0 : 0 ≤ Word64.signed feed.centerRow + b.topRow) {n : Nat}
    (h : b.Running feed trips word avail n m)
    (henough : Supply.Enough short feed.endpoint avail
      (b.firstWord feed + b.validSteps feed trips))
    {ops : List AdvanceOp} (hops : b.advance feed trips = .ok ops) :
    Outcome short (fun m' => b.Running feed trips word avail (n + 1) m' ∧
      m.Within (namesOf b.storage) [feed.endpoint] m') (m.step ops n) := by
  obtain ⟨-, last, hlast, rfl⟩ := hl.advance_eq_ok hops
  rw [hl.delays_eq, Machine.step, List.foldlM_append]
  obtain ⟨s₁, hs₁, hdelay, hw₁⟩ := exec_delays b n b.poppedRows m
  have hholds₁ : b.Holds _ _ ({ m with store := s₁ } : Machine w).store :=
    h.holds.of_within hw₁ fun x hx => hl.delayed_notMem_flow hx
  rw [hs₁, ok_bind, List.foldlM_append]
  obtain ⟨s₂, hs₂, s₃, hs₃, hholds₃, hw₃⟩ := hholds₁.put_last hl hn hlast n
  rw [hs₂, ok_bind]
  simp only [List.foldlM_cons, List.foldlM_nil, bind_pure, AdvanceOp.exec]
  -- the word that is fetched
  have hfetch : Outcome short (fun r =>
      r.1 = b.supplied feed trips word (b.firstWord feed + n) ∧
      r.2.Serves feed.endpoint word avail
        (b.firstWord feed + min (n + 1) (b.validSteps feed trips)) ∧
      Supply.Within [feed.endpoint] m.supply r.2)
      (if n < b.validSteps feed trips then
        m.supply.receive feed.endpoint (b.firstWord feed + n) else .ok (0, m.supply)) := by
    have hserves := h.serves
    split
    · next hlt =>
      rw [Nat.min_eq_left (by omega)] at hserves
      refine (Supply.receive_serves hserves (henough.mono (by omega))).mono fun r hr => ?_
      obtain ⟨hv, hs, hw⟩ := hr
      refine ⟨?_, ?_, hw⟩
      · rw [hv, supplied, if_pos (by omega)]
      · rwa [Nat.min_eq_left (by omega)]
    · next hge =>
      rw [Nat.min_eq_right (by omega)] at hserves
      refine ⟨?_, ?_, .refl ..⟩
      · rw [supplied, if_neg (by omega)]
      · rwa [Nat.min_eq_right (by omega)]
  refine hfetch.bind fun r hr => ?_
  obtain ⟨hv, hs, hw⟩ := hr
  rw [show b.rowStart feed b.topRow + n + span b.rowWords b.blockCount = b.firstWord feed + n by
    rw [← hl.start_add_span h0]; omega, ← hv] at hs₃
  simp only [hs₃, ok_bind, pure_eq_ok]
  refine ⟨⟨hholds₃, fun r hr => ?_, hs⟩, ⟨?_, hw, rfl, rfl⟩⟩
  · have hoff := hl.popped_notMem_flow (hl.poppedName_mem hr)
    obtain ⟨k, hk⟩ : ∃ k, (r, k + 1) ∈ b.blockCount := by
      obtain ⟨p, hp, rfl⟩ := List.mem_map.1 hr
      exact hl.pops_blocks p (List.mem_filter.1 hp).1
    have htop : b.topRow ≤ r := ((hl.contiguous.mem_iff r).1 ⟨_, hk⟩).1
    rw [hw₃.regs_eq _ hoff, hdelay r hr,
      h.holds.regs_block hl hfit (by rw [hl.blocks_eq hk]; omega), if_neg (by omega),
      Laid.rowStart_eq h0 htop]
    congr 1
    omega
  · rw [storage, namesOf_append]
    refine (hw₁.mono ?_).trans (hw₃.mono (List.subset_append_left ..))
    intro x hx
    obtain ⟨r, hr, rfl⟩ := List.mem_map.1 hx
    exact List.mem_append_right _ (hl.poppedName_mem hr)

/-! ## A run -/

/-- Declared elements: queues are empty, and popped registers are zero. -/
structure Ready (b : LineBuffer) (s : Store w) : Prop where
  queues : ∀ e ∈ b.flow, ∀ d, e.kind = .queue d → s.queues e.name = [] ∧ s.depths e.name = d
  popped : ∀ n ∈ namesOf b.popped, s.regs n = 0

/-- A buffer runs once it is filled. -/
theorem running_of_fill (hl : b.Laid) (hfit : b.RowsFit)
    (hready : b.Ready m.store) (hs : m.supply.Serves feed.endpoint word avail 0)
    (hn : Supply.Enough short feed.endpoint avail (b.firstWord feed)) (trips : Nat)
    {ops : List InitOp} (hops : b.init feed = .ok ops) :
    Outcome short (fun m' => b.Running feed trips word avail 0 m' ∧
      m.Within (namesOf b.storage) [feed.endpoint] m') (m.fill ops) := by
  obtain ⟨h0, rfl⟩ := init_eq_ok hl hops
  rw [← hl.start_add_span h0] at hn
  refine (fill_init hl hfit hready.queues hs hn).mono fun m' hm' => ?_
  obtain ⟨hflat, hlev, hs', hw⟩ := hm'
  refine ⟨⟨⟨?_, hlev, ?_⟩, fun r hr => ?_, ?_⟩, hw.mono ?_⟩
  · rw [hflat, Nat.add_zero]
    refine List.map_congr_left fun a ha => ?_
    rw [List.mem_range'_1, hl.start_add_span h0] at ha
    rw [supplied, if_pos (by omega)]
  · intro e he d hd
    rw [hw.store.depths_eq]
    exact (hready.queues e he d hd).2
  · have hmem := hl.poppedName_mem hr
    rw [if_pos rfl, hw.store.regs_eq _ (hl.popped_notMem_flow hmem)]
    exact hready.popped _ hmem
  · rwa [Nat.zero_min, Nat.add_zero, ← hl.start_add_span h0]
  · rw [storage, namesOf_append]
    exact List.subset_append_left ..

/-- A buffer runs after any number of steps. -/
theorem Running.steps (hl : b.Laid) (hfit : b.RowsFit) (hn : b.Narrow)
    (h0 : 0 ≤ Word64.signed feed.centerRow + b.topRow) (h : b.Running feed trips word avail 0 m)
    (henough : Supply.Enough short feed.endpoint avail
      (b.firstWord feed + b.validSteps feed trips))
    {ops : List AdvanceOp} (hops : b.advance feed trips = .ok ops) (n : Nat) :
    Outcome short (b.Running feed trips word avail n) (m.steps ops n) :=
  Outcome.foldlM_range (b.Running feed trips word avail) h fun _ _ _ hi =>
    (hi.step hl hfit hn h0 henough hops).mono fun _ hrun => hrun.1

end LineBuffer

end GridSweep
