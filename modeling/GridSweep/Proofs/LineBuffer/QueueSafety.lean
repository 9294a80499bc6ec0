import GridSweep.Proofs.LineBuffer.Draining

/-!
# Queues neither run empty nor overflow

A buffer is declared, filled, stepped and drained. Its queues are safe on every feed and for every
number of steps exactly when a grid row is wider than the blocks of each row above the bottom row.
A layout whose blocks take a whole grid row is accepted as well: the queue of that row is filled
with no words, and the first step takes one from it.
-/

namespace GridSweep

/-! ## Declared elements -/

namespace Store

variable {w : Nat}

/-- An element as it is when it is declared. -/
def Declared (s : Store w) (e : Element) : Prop :=
  match e.kind with
  | .queue depth => s.queues e.name = [] ∧ s.depths e.name = depth
  | .block _ | .popped _ => s.regs e.name = 0

theorem declared_declare (s : Store w) (e : Element) : (s.declare e).Declared e := by
  obtain ⟨name, row, kind⟩ := e
  cases kind <;> simp [Declared, declare]

/-- Declaring elements leaves the others alone. -/
theorem foldl_declare_off (es : List Element) {x : Element} (hx : x.name ∉ namesOf es) :
    ∀ s : Store w, (es.foldl declare s).Declared x ↔ s.Declared x := by
  induction es with
  | nil => intro s; rfl
  | cons e es ih =>
    intro s
    simp only [namesOf, List.map_cons, List.mem_cons, not_or] at hx
    rw [List.foldl_cons, ih hx.2]
    unfold Declared declare
    split <;> split <;> simp [setQueue, setReg, Function.update_of_ne hx.1]

theorem declared_foldl_declare (es : List Element) (hnd : (namesOf es).Nodup) :
    ∀ s : Store w, ∀ e ∈ es, (es.foldl declare s).Declared e := by
  induction es with
  | nil => simp
  | cons e es ih =>
    obtain ⟨he, hnd⟩ := List.nodup_cons.1 hnd
    intro s x hx
    rw [List.foldl_cons]
    rcases List.mem_cons.1 hx with rfl | hx
    · exact (foldl_declare_off es he _).2 (declared_declare s x)
    · exact ih hnd _ x hx

end Store

namespace LineBuffer

variable {w : Nat} {b : LineBuffer} {feed : Feed} {m : Machine w}

theorem Laid.nodup_storage (hl : b.Laid) : (namesOf b.storage).Nodup := by
  rw [storage, namesOf_append]
  refine hl.nodup_flow.append ?_ fun n hf hp => hl.popped_notMem_flow hp hf
  rw [hl.popped_eq, namesOf_buildPopped]
  exact (nodup_poppedParts hl.pops_ascending).map b.partName_injective

theorem ready_of_declared {s : Store w} (hl : b.Laid) (h : ∀ e ∈ b.storage, s.Declared e) :
    b.Ready s := by
  refine ⟨fun e he d hd => ?_, fun n hn => ?_⟩
  · have := h e (List.mem_append_left _ he)
    rwa [Store.Declared, hd] at this
  · obtain ⟨e, he, rfl⟩ := List.mem_map.1 hn
    have hdecl := h e (List.mem_append_right _ he)
    rw [hl.popped_eq] at he
    obtain ⟨p, -, he⟩ := List.mem_flatMap.1 he
    obtain ⟨i, -, rfl⟩ := List.mem_map.1 he
    exact hdecl

theorem ready_declare (hl : b.Laid) (m : Machine w) : b.Ready (m.declare b.storage).store :=
  ready_of_declared hl (Store.declared_foldl_declare b.storage hl.nodup_storage m.store)

/-! ## Runs -/

/-- Declares a buffer, fills it, runs `n` steps and drains it. -/
def run (b : LineBuffer) (inits : List InitOp) (moves : List AdvanceOp) (n : Nat)
    (m : Machine w) : Except Fault (Machine w) := do
  let m ← (m.declare b.storage).fill inits
  let m ← m.steps moves n
  m.drain b.drain

/-- Every source gives some words. -/
theorem exists_serves (p : Supply w) (source : Endpoint) :
    ∃ word avail, p.Serves source word avail 0 := by
  cases source with
  | memory buffer => exact ⟨p.memory buffer, 0, rfl⟩
  | stream name =>
    refine ⟨fun k => (p.channels name).getD k 0, (p.channels name).length, ?_⟩
    refine List.ext_getElem (by simp) fun k hk _ => ?_
    simp [hk]

theorem queue_safe_of_narrow (hl : b.Laid) (hfit : b.RowsFit)
    (hn : b.Narrow) {trips : Nat} {inits : List InitOp} {moves : List AdvanceOp}
    (hinit : b.init feed = .ok inits) (hmove : b.advance feed trips = .ok moves) (n : Nat)
    (m : Machine w) : Outcome True (fun _ => True) (b.run inits moves n m) := by
  obtain ⟨word, avail, hs⟩ := exists_serves m.supply feed.endpoint
  refine (running_of_fill hl hfit (ready_declare hl m) hs (.inl trivial) trips hinit).bind
    fun m₁ h₁ => ?_
  refine (h₁.1.steps hl hfit hn (top_nonneg_of_init hinit) (.inl trivial) hmove n).bind
    fun m₂ h₂ => ?_
  obtain ⟨s, hs, -⟩ := h₂.holds.drain hl
  rw [hs]
  trivial

/-! ## A queue without words -/

theorem queue_mem_flowOf {l : List (Int × Nat)} {r : Int} (hc : Contiguous r l) {row : Int}
    {k : Nat} (hm : (row, k) ∈ l) (hlt : row + 1 < r + l.length) :
    ⟨b.line row, row, .queue (b.queueDepth k)⟩ ∈ b.flowOf l := by
  fun_induction flowOf b l generalizing r with
  | case1 => cases hm
  | case2 row' k' =>
    obtain ⟨hr, -⟩ := hc
    obtain ⟨rfl, -⟩ : row = row' ∧ k = k' := by simpa using hm
    simp only [List.length_singleton] at hlt hr
    omega
  | case3 row' k' below hne ih =>
    obtain ⟨hr, hc⟩ := hc
    refine List.mem_append_right _ ?_
    rcases List.mem_cons.1 hm with heq | hm
    · cases heq
      exact List.mem_cons_self
    · refine List.mem_cons_of_mem _ (ih hc hm ?_)
      simp only [List.length_cons] at hlt
      omega

/-- A list splits at the first element with a property. -/
theorem exists_first {α : Type} {P : α → Prop} {l : List α} (h : ∃ a ∈ l, P a) :
    ∃ front a post, l = front ++ a :: post ∧ P a ∧ ∀ x ∈ front, ¬ P x := by
  classical
  obtain ⟨a, ha, hp⟩ := h
  have hsome : (l.find? fun x => decide (P x)).isSome :=
    List.find?_isSome.2 ⟨a, ha, decide_eq_true hp⟩
  obtain ⟨x, hx⟩ := Option.isSome_iff_exists.1 hsome
  obtain ⟨hpx, front, post, heq, hfront⟩ := List.find?_eq_some_iff_append.1 hx
  exact ⟨front, x, post, heq, of_decide_eq_true hpx, fun y hy => by simpa using hfront y hy⟩

/-- Sources that give `n` zeros each. -/
def zeros (w n : Nat) : Supply w := ⟨fun _ => List.replicate n 0, fun _ _ => 0⟩

theorem serves_zeros (source : Endpoint) (n : Nat) :
    (zeros w n).Serves source (fun _ => 0) n 0 := by
  cases source with
  | memory buffer => rfl
  | stream name => simp [zeros, Supply.Serves]

/-- The queue of a row whose blocks take up a whole grid row has no words. -/
theorem Holds.exists_empty {s : Store w} {word : Nat → BitVec w} {base : Nat} (hl : b.Laid)
    (h : b.Holds word base s) (hfit : b.RowsFit) (hn : ¬ b.Narrow) :
    ∃ e ∈ b.flow, s.contents e = [] := by
  simp only [Narrow, not_forall, not_lt] at hn
  obtain ⟨row, hlt, hfull⟩ := hn
  have hpos : 0 < b.rowWords :=
    hl.top_blocks_pos.trans_le (hfit _ (hl.mem_blockCount (Int.le_refl _) hl.top_le_bottom))
  have htop : b.topRow ≤ row := by
    by_contra hout
    rw [hl.blocks_eq_zero (by omega)] at hfull
    omega
  have hlen := hl.bottomRow_eq
  have hne := List.length_pos_iff.2 hl.nonempty
  have hmem := queue_mem_flowOf (b := b) hl.contiguous (hl.mem_blockCount htop (by omega))
    (by omega)
  rw [← hl.flow_eq] at hmem
  refine ⟨_, hmem, List.length_eq_zero_iff.1 ?_⟩
  have hlenq := h.length_queue hl hmem rfl
  rw [show s.contents _ = s.queues _ from rfl, hlenq]
  simp only
  omega

/-- A row whose blocks take a whole grid row has a queue from which the first step takes a word that
is not there. -/
theorem fault_of_not_narrow (hl : b.Laid) (hfit : b.RowsFit)
    (hn : ¬ b.Narrow) {trips : Nat} {inits : List InitOp} {moves : List AdvanceOp}
    (hinit : b.init feed = .ok inits) (hmove : b.advance feed trips = .ok moves) :
    ∃ queue, b.run inits moves 1 (.start (zeros w (b.firstWord feed))) =
      .error (.emptyQueue queue) := by
  set m : Machine w := .start (zeros w (b.firstWord feed)) with hm
  obtain ⟨m₁, hm₁, h₁, -⟩ := (running_of_fill hl hfit (ready_declare hl m)
    (serves_zeros feed.endpoint _) (.inr fun _ => Nat.le_refl _) trips hinit).exists_ok
  have hempty := h₁.holds.exists_empty hl hfit hn
  obtain ⟨front, q, post, hflow, hq, hfront⟩ := exists_first hempty
  obtain ⟨-, last, -, rfl⟩ := hl.advance_eq_ok hmove
  obtain ⟨rest, hcons⟩ := hl.flow_eq_cons
  obtain ⟨t, front, rfl⟩ : ∃ t f, front = t :: f := by
    cases front with
    | nil =>
      rw [hflow] at hcons
      cases hcons
      cases hq
    | cons t f => exact ⟨t, f, rfl⟩
  have hisq : q.isQueue := by
    by_contra hno
    simp [Store.contents, hno] at hq
  obtain ⟨s₂, hs₂, -, hw₂⟩ := exec_delays b 0 b.poppedRows m₁
  have hoff : ∀ e ∈ b.flow, e.name ∉ b.poppedRows.map fun r => b.poppedName r 0 := fun e he hx =>
    hl.delayed_notMem_flow hx (name_mem_namesOf he)
  have ht : t.isQueue = false := by
    rw [hflow] at hcons
    cases hcons
    rfl
  have hmem : ∀ e ∈ t :: (front ++ q :: post), e ∈ b.flow := fun e he => by rw [hflow]; exact he
  have hrun := exec_shifts_empty (i := 0) q post hisq front t { m₁ with store := s₂ }
    (by simpa [hflow, namesOf] using hl.nodup_flow) (fun h => by rw [ht] at h; cases h)
    (fun e he => by
      have heb := hmem e (by simp [he])
      rw [hw₂.contents_eq (hoff e heb), hw₂.fits_iff (hoff e heb)]
      exact ⟨hfront e (by simp [he]), h₁.holds.fits heb⟩)
    (by
      have heb := hmem q (by simp)
      have := hw₂.contents_eq (hoff q heb)
      rw [hq] at this
      simpa [Store.contents, hisq] using this)
  refine ⟨q.name, ?_⟩
  simp only [run, hm₁, ok_bind, Machine.steps, List.range_one, List.foldlM_cons, List.foldlM_nil,
    bind_pure, Machine.step, List.foldlM_append, hl.delays_eq, hs₂, hflow, List.cons_append, hrun,
    error_bind]

/-- The queues of an accepted layout are safe on all feeds exactly if no row above the bottom row
has blocks for a whole grid row. -/
theorem queue_safe_iff_narrow {var : String} {rows : RowRefs} {target : Accelerator}
    {gridCols trips : Nat} {inits : List InitOp} {moves : List AdvanceOp} (hr : Ascending rows)
    (hb : synthesize var rows target gridCols = .ok b)
    (hfits : b.checkFits gridCols target.lanes = .ok ())
    (hinit : b.init feed = .ok inits) (hmove : b.advance feed trips = .ok moves) :
    (∀ (m : Machine w) (n : Nat) (fault : Fault),
      b.run inits moves n m = .error fault → fault.ofQueue = false) ↔ b.Narrow := by
  have hl := laid_of_synthesize hr hb
  obtain ⟨-, -, hfit⟩ := checkFits_ok hfits
  constructor
  · intro hsafe
    by_contra hn
    obtain ⟨queue, hfault⟩ := fault_of_not_narrow (w := w) hl hfit hn hinit hmove
    cases hsafe _ _ _ hfault
  · intro hn m n fault hfault
    exact (queue_safe_of_narrow hl hfit hn hinit hmove n m).not_ofQueue hfault

/-- Two rows of one block on a grid of two words per row are safe. -/
theorem two_word_rows_safe : ∃ b inits moves,
    synthesize "a" [(0, [0]), (1, [0])] .standard 32 = .ok b ∧ b.checkFits 32 16 = .ok () ∧
      b.init ⟨.memory "a", 0, 4⟩ = .ok inits ∧ b.advance ⟨.memory "a", 0, 4⟩ 2 = .ok moves ∧
      ∀ (m : Machine 512) (n : Nat) (fault : Fault),
        b.run inits moves n m = .error fault → fault.ofQueue = false := by
  refine ⟨_, _, _, rfl, rfl, rfl, rfl, ?_⟩
  exact (@queue_safe_iff_narrow 512 _ ⟨.memory "a", 0, 4⟩ "a" [(0, [0]), (1, [0])] .standard 32
    2 _ _ (by decide) rfl rfl rfl rfl).2 (narrow_of_blockCount (by decide) (by decide))

/-- The same rows on a grid of one word per row are accepted, and the first step takes a word from
an empty queue. -/
theorem one_word_rows_fault : ∃ b inits moves,
    synthesize "a" [(0, [0]), (1, [0])] .standard 16 = .ok b ∧ b.checkFits 16 16 = .ok () ∧
      b.init ⟨.memory "a", 0, 2⟩ = .ok inits ∧ b.advance ⟨.memory "a", 0, 2⟩ 1 = .ok moves ∧
      b.run inits moves 1 (.start (zeros 512 0)) = .error (.emptyQueue "a_line_0") :=
  ⟨_, _, _, rfl, rfl, rfl, rfl, rfl⟩

end LineBuffer

end GridSweep
