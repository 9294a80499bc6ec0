import GridSweep.Proofs.LineBuffer.Layout
import GridSweep.Proofs.Machine.Supply

/-!
# Filling a line buffer

The operations that fill a line buffer take consecutive words of the feed, in the order of the flow.
`init_eq_ok` says that filling can do nothing else, `InFeed.init_eq` when it succeeds, and
`fill_rows` what the operations leave behind: the flow holds the words from the top row's first one
on, and every queue has room for exactly one more.
-/

namespace GridSweep

/-- `m'` differs from `m` at most in the named elements and in what is left of some channels. -/
structure Machine.Within {w : Nat} (names : List String) (sources : List Endpoint)
    (m m' : Machine w) : Prop where
  store : Store.Within names m.store m'.store
  supply : Supply.Within sources m.supply m'.supply
  taps_eq : m'.taps = m.taps
  result_eq : m'.result = m.result

namespace Machine.Within

variable {w : Nat} {names names' : List String} {sources sources' : List Endpoint}
  {m m' m'' : Machine w}

theorem refl (names : List String) (sources : List Endpoint) (m : Machine w) :
    Within names sources m m := ⟨.refl .., .refl .., rfl, rfl⟩

theorem trans (h : Within names sources m m') (h' : Within names sources m' m'') :
    Within names sources m m'' :=
  ⟨h.store.trans h'.store, h.supply.trans h'.supply, h'.taps_eq.trans h.taps_eq,
    h'.result_eq.trans h.result_eq⟩

theorem mono (h : Within names sources m m') (hsub : names ⊆ names') :
    Within names' sources m m' := ⟨h.store.mono hsub, h.supply, h.taps_eq, h.result_eq⟩

theorem mono_sources (h : Within names sources m m') (hsub : sources ⊆ sources') :
    Within names sources' m m' := ⟨h.store, h.supply.mono hsub, h.taps_eq, h.result_eq⟩

end Machine.Within

namespace LineBuffer

variable {w : Nat} {b : LineBuffer} {feed : Feed} {m : Machine w} {word : Nat → BitVec w}
  {avail : Nat} {short : Prop}

/-! ## The operations -/

/-- The position in the feed of a row's first word. -/
def rowStart (b : LineBuffer) (feed : Feed) (row : Int) : Nat :=
  (Word64.signed feed.centerRow + row).toNat * b.rowWords

/-- The position of the word that the first step fetches. -/
def firstWord (b : LineBuffer) (feed : Feed) : Nat :=
  b.rowStart feed b.bottomRow + b.blocks b.bottomRow

/-- Addresses count from the feed's first word, and are in range. -/
theorem address_eq_ok {row : Int} {k a : Nat} (h : b.address feed row k = .ok a) :
    a = b.rowStart feed row + k ∧ 0 ≤ Word64.signed feed.centerRow + row ∧
      Word64.signed feed.centerRow + row < 0x8000000000000000 ∧ a < 0x10000000000000000 := by
  obtain ⟨feedRow, hfeed, h⟩ := bind_eq_ok.1 h
  obtain ⟨rfl, -, hlt⟩ := Word64.checked_eq_ok hfeed
  split at h
  · cases h
  next hnn =>
  obtain ⟨rfl, hword⟩ := Word64.checkedCount_eq_ok h
  exact ⟨rfl, by omega, hlt, hword⟩

theorem rowStart_succ {row : Int} (h : 0 ≤ Word64.signed feed.centerRow + row) :
    b.rowStart feed (row + 1) = b.rowStart feed row + b.rowWords := by
  unfold rowStart
  rw [show (Word64.signed feed.centerRow + (row + 1)).toNat =
    (Word64.signed feed.centerRow + row).toNat + 1 by omega, Nat.succ_mul]

/-- Words that rows hold: whole grid rows, and the blocks of the last one. -/
def span (rowWords : Nat) : List (Int × Nat) → Nat
  | [] => 0
  | [(_, k)] => k
  | _ :: below => rowWords + span rowWords below

def loads (b : LineBuffer) (source : Endpoint) (base : Nat) (row : Int) (k : Nat) : List InitOp :=
  (List.range k).map fun i => .load (b.blockName row i) source (base + i)

/-- The operations that fill rows with the words from position `base` on. -/
def rowInits (b : LineBuffer) (source : Endpoint) : Nat → List (Int × Nat) → List InitOp
  | _, [] => []
  | base, [(row, k)] => b.loads source base row k
  | base, (row, k) :: below =>
    b.loads source base row k ++ .fill (b.line row) source (base + k) (b.rowWords - k) ::
      b.rowInits source (base + b.rowWords) below

/-- The operations that fill one row; the bottom row has no queue. -/
def rowFill (b : LineBuffer) (feed : Feed) (bottom row : Int) (k : Nat) : List InitOp :=
  b.loads feed.endpoint (b.rowStart feed row) row k ++ if row = bottom then [] else
    [.fill (b.line row) feed.endpoint (b.rowStart feed row + k) (b.rowWords - k)]

theorem loadRow_eq_ok {row : Int} {k : Nat} {ops : List InitOp}
    (h : b.loadRow feed row k = .ok ops) :
    ops = b.loads feed.endpoint (b.rowStart feed row) row k := by
  refine eq_map_of_mapM (fun i op hop => ?_) h
  obtain ⟨a, ha, hop⟩ := bind_eq_ok.1 hop
  cases hop
  rw [(address_eq_ok ha).1]

theorem initRow_eq_ok {bottom row : Int} {k : Nat} {ops : List InitOp}
    (h : b.initRow feed bottom row k = .ok ops) : ops = b.rowFill feed bottom row k := by
  unfold initRow at h
  obtain ⟨loads, hloads, h⟩ := bind_eq_ok.1 h
  obtain rfl := loadRow_eq_ok hloads
  unfold rowFill
  split at h
  · next hbottom =>
    cases h
    simp [hbottom]
  · next hbottom =>
    obtain ⟨first, hfirst, h⟩ := bind_eq_ok.1 h
    cases h
    rw [if_neg hbottom, (address_eq_ok hfirst).1]

/-- The rows of a buffer, each filled with its own words, take consecutive words of the feed. -/
theorem flatten_rowFill (b : LineBuffer) (feed : Feed) (l : List (Int × Nat)) :
    ∀ (r bottom : Int), Contiguous r l → 0 ≤ Word64.signed feed.centerRow + r →
      bottom = r + (l.length - 1 : Nat) →
      (l.map fun p => b.rowFill feed bottom p.1 p.2).flatten =
        b.rowInits feed.endpoint (b.rowStart feed r) l := by
  induction l with
  | nil => intro r bottom _ _ _; rfl
  | cons p l ih =>
    obtain ⟨row, k⟩ := p
    rintro r bottom ⟨rfl, hc⟩ h0 hb
    simp only at hc h0 hb ⊢
    rw [List.map_cons, List.flatten_cons]
    cases l with
    | nil =>
      obtain rfl : bottom = row := by simpa using hb
      simp [rowFill, rowInits]
    | cons next rest =>
      have hne : row ≠ bottom := by simp only [List.length_cons] at hb; omega
      rw [ih (row + 1) bottom hc (by omega) (by
        simp only [List.length_cons] at hb ⊢
        omega), rowFill, if_neg hne, rowStart_succ h0]
      simp [rowInits]

/-- A stream loses the words above the window. -/
def discards (feed : Feed) (start : Nat) : List InitOp :=
  if feed.endpoint.isStream ∧ 0 < start then [.discard feed.endpoint start] else []

/-- All operations that fill a buffer. -/
def inits (b : LineBuffer) (feed : Feed) : List InitOp :=
  discards feed (b.rowStart feed b.topRow) ++
    b.rowInits feed.endpoint (b.rowStart feed b.topRow) b.blockCount

/-- A buffer is filled from a row that is not above the feed, by words in order. -/
theorem init_eq_ok (hl : b.Laid) {ops : List InitOp} (h : b.init feed = .ok ops) :
    0 ≤ Word64.signed feed.centerRow + b.topRow ∧ ops = b.inits feed := by
  unfold init at h
  obtain ⟨start, haddress, h⟩ := bind_eq_ok.1 h
  obtain ⟨hstart, h0, -⟩ := address_eq_ok haddress
  obtain ⟨fills, hfills, h⟩ := bind_eq_ok.1 h
  rw [hl.allRows_eq] at hfills
  have hfilled : fills = b.blockCount.map fun p => b.rowFill feed b.bottomRow p.1 p.2 :=
    eq_map_of_mapM (fun p ops hops => initRow_eq_ok hops) hfills
  refine ⟨h0, (Except.ok.inj h).symm.trans ?_⟩
  rw [hfilled, flatten_rowFill b feed _ _ _ hl.contiguous h0 hl.bottomRow_eq, hstart, Nat.add_zero]
  rfl

theorem top_nonneg_of_init {ops : List InitOp} (h : b.init feed = .ok ops) :
    0 ≤ Word64.signed feed.centerRow + b.topRow := by
  unfold init at h
  obtain ⟨start, hstart, -⟩ := bind_eq_ok.1 h
  exact (address_eq_ok hstart).2.1

theorem Laid.top_le_bottom (hl : b.Laid) : b.topRow ≤ b.bottomRow := by
  rw [hl.bottomRow_eq]
  omega

theorem fill_append (m : Machine w) (ops ops' : List InitOp) :
    m.fill (ops ++ ops') = m.fill ops >>= fun m => m.fill ops' := List.foldlM_append

theorem blockName_mem {row : Int} {k i : Nat} (hi : i < k) :
    b.blockName row i ∈ namesOf (b.blockElements row k) := by
  rw [namesOf_blockElements]
  exact List.mem_map.2 ⟨.block row i, List.mem_map_of_mem (List.mem_range.2 hi), rfl⟩

theorem blockName_inj {row : Int} {i j : Nat} (h : b.blockName row i = b.blockName row j) :
    i = j := by
  have hp : Part.block row i = Part.block row j := b.partName_injective h
  simpa using hp

theorem fill_loads {source : Endpoint} {base k : Nat} {row : Int}
    (hs : m.supply.Serves source word avail base)
    (hn : Supply.Enough short source avail (base + k)) :
    Outcome short (fun m' => (∀ i < k, m'.store.regs (b.blockName row i) = word (base + i)) ∧
      m'.supply.Serves source word avail (base + k) ∧
      m.Within (namesOf (b.blockElements row k)) [source] m')
      (m.fill (b.loads source base row k)) := by
  unfold Machine.fill loads
  rw [List.foldlM_map]
  refine Outcome.foldlM_range (fun i m' =>
    (∀ j < i, m'.store.regs (b.blockName row j) = word (base + j)) ∧
      m'.supply.Serves source word avail (base + i) ∧
      m.Within (namesOf (b.blockElements row k)) [source] m')
    ⟨by simp, hs, .refl ..⟩ fun i hi m₁ hm₁ => ?_
  obtain ⟨hregs, hs₁, hw₁⟩ := hm₁
  refine (Supply.receive_serves hs₁ (hn.mono (by omega))).bind fun r hr => ?_
  obtain ⟨hv, hs₂, hw₂⟩ := hr
  have hset := Store.within_setReg m₁.store (b.blockName row i) r.1
  refine ⟨fun j hj => ?_, hs₂,
    hw₁.trans ⟨hset.mono (by simpa using blockName_mem hi), hw₂, rfl, rfl⟩⟩
  by_cases hji : j = i
  · subst hji
    simpa using hv
  · rw [hset.regs_eq _ (by simpa using fun h => hji (blockName_inj h))]
    exact hregs j (by omega)

theorem fill_queue {source : Endpoint} {q : String} {first count : Nat}
    (hs : m.supply.Serves source word avail first)
    (hn : Supply.Enough short source avail (first + count)) (hempty : m.store.queues q = [])
    (hroom : count ≤ m.store.depths q) :
    Outcome short (fun m' => m'.store.queues q = (List.range' first count).map word ∧
      m'.supply.Serves source word avail (first + count) ∧ m.Within [q] [source] m')
      (InitOp.exec m (.fill q source first count)) := by
  refine Outcome.foldlM_range (fun i m' => m'.store.queues q = (List.range' first i).map word ∧
    m'.supply.Serves source word avail (first + i) ∧ m.Within [q] [source] m')
    ⟨by simpa using hempty, hs, .refl ..⟩ fun i hi m₁ hm₁ => ?_
  obtain ⟨hq, hs₁, hw₁⟩ := hm₁
  refine (Supply.receive_serves hs₁ (hn.mono (by omega))).bind fun r hr => ?_
  obtain ⟨hv, hs₂, hw₂⟩ := hr
  have hlen : (m₁.store.queues q).length < m₁.store.depths q := by
    rw [hq, hw₁.store.depths_eq]
    simp
    omega
  simp only [Store.push_ok hlen, ok_bind, pure_eq_ok]
  refine ⟨?_, hs₂, hw₁.trans ⟨Store.within_setQueue .., hw₂, rfl, rfl⟩⟩
  simpa [hq, List.range'_1_concat] using hv

theorem contents_blockElements (b : LineBuffer) (s : Store w) (row : Int) (k : Nat) :
    (b.blockElements row k).flatMap s.contents =
      (List.range k).map fun i => s.regs (b.blockName row i) := by
  rw [blockElements, List.flatMap_map, List.map_eq_flatMap]
  rfl

theorem contents_blocks {s : Store w} {base k : Nat} {row : Int}
    (h : ∀ i < k, s.regs (b.blockName row i) = word (base + i)) :
    (b.blockElements row k).flatMap s.contents = (List.range' base k).map word := by
  rw [contents_blockElements, List.range'_eq_map_range, List.map_map]
  exact List.map_congr_left fun i hi => h i (List.mem_range.1 hi)

theorem name_mem_namesOf {flow : List Element} {e : Element} (h : e ∈ flow) :
    e.name ∈ namesOf flow := List.mem_map_of_mem h

theorem namesOf_append (l l' : List Element) : namesOf (l ++ l') = namesOf l ++ namesOf l' :=
  List.map_append

theorem isQueue_of_mem_blockElements {row : Int} {k : Nat} {e : Element}
    (h : e ∈ b.blockElements row k) : e.isQueue = false := by
  obtain ⟨i, -, rfl⟩ := List.mem_map.1 h
  rfl

/-- Elements got `count` words, from position `base` on: they have them in order, and every queue is
one word short of its depth. -/
structure Filled (es : List Element) (source : Endpoint) (word : Nat → BitVec w)
    (avail base count : Nat) (m m' : Machine w) : Prop where
  contents : es.flatMap m'.store.contents = (List.range' base count).map word
  level : ∀ e ∈ es, m'.store.Level e
  serves : m'.supply.Serves source word avail (base + count)
  within : m.Within (namesOf es) [source] m'

theorem Filled.append {es es' : List Element} {source : Endpoint} {base count count' : Nat}
    {m₁ m₂ : Machine w} (h : Filled es source word avail base count m m₁)
    (h' : Filled es' source word avail (base + count) count' m₁ m₂)
    (hdisj : (namesOf es).Disjoint (namesOf es')) :
    Filled (es ++ es') source word avail base (count + count') m m₂ := by
  have hoff : ∀ e ∈ es, e.name ∉ namesOf es' := fun e he => hdisj (name_mem_namesOf he)
  refine ⟨?_, fun e he => ?_, ?_, ?_⟩
  · have hkept : es.flatMap m₂.store.contents = es.flatMap m₁.store.contents :=
      List.flatMap_congr fun e he => h'.within.store.contents_eq (hoff e he)
    rw [List.flatMap_append, hkept, h.contents, h'.contents, ← List.map_append,
      List.range'_append_1]
  · rcases List.mem_append.1 he with he | he
    · exact (h'.within.store.level_iff (hoff e he)).2 (h.level e he)
    · exact h'.level e he
  · rw [← Nat.add_assoc]
    exact h'.serves
  · rw [namesOf_append]
    exact (h.within.mono (List.subset_append_left ..)).trans
      (h'.within.mono (List.subset_append_right ..))

/-- The elements of a row that has a queue. -/
def rowElements (b : LineBuffer) (row : Int) (k : Nat) : List Element :=
  b.blockElements row k ++ [⟨b.line row, row, .queue (b.queueDepth k)⟩]

theorem fill_blocks {source : Endpoint} {base k : Nat} {row : Int}
    (hs : m.supply.Serves source word avail base)
    (hn : Supply.Enough short source avail (base + k)) :
    Outcome short (Filled (b.blockElements row k) source word avail base k m)
      (m.fill (b.loads source base row k)) := by
  refine (fill_loads hs hn).mono fun m' hm' => ?_
  obtain ⟨hregs, hs', hw⟩ := hm'
  refine ⟨contents_blocks hregs, fun e he hq => ?_, hs', hw⟩
  rw [isQueue_of_mem_blockElements he] at hq
  cases hq

theorem fill_row {source : Endpoint} {base k : Nat} {row : Int} (hk : k ≤ b.rowWords)
    (hline : b.line row ∉ namesOf (b.blockElements row k))
    (hempty : m.store.queues (b.line row) = [])
    (hdepth : m.store.depths (b.line row) = b.queueDepth k)
    (hs : m.supply.Serves source word avail base)
    (hn : Supply.Enough short source avail (base + b.rowWords)) :
    Outcome short (Filled (b.rowElements row k) source word avail base b.rowWords m)
      (m.fill (b.loads source base row k ++
        [.fill (b.line row) source (base + k) (b.rowWords - k)])) := by
  rw [fill_append]
  refine (fill_blocks hs (hn.mono (by omega))).bind fun m₁ h₁ => ?_
  have hdepth₁ : m₁.store.depths (b.line row) = b.queueDepth k := by
    rw [h₁.within.store.depths_eq, hdepth]
  simp only [Machine.fill, List.foldlM_cons, List.foldlM_nil, bind_pure]
  refine (fill_queue h₁.serves (hn.mono (by omega))
    ((h₁.within.store.queues_eq _ hline).trans hempty)
    (by rw [hdepth₁, queueDepth]; omega)).mono fun m₂ hm₂ => ?_
  obtain ⟨hq, hs₂, hw₂⟩ := hm₂
  have h₂ : Filled [⟨b.line row, row, .queue (b.queueDepth k)⟩] source word avail (base + k)
      (b.rowWords - k) m₁ m₂ := by
    refine ⟨?_, fun e he _ => ?_, hs₂, hw₂⟩
    · rw [List.flatMap_singleton]
      exact hq
    · rw [List.mem_singleton.1 he, hq, hw₂.store.depths_eq, hdepth₁, queueDepth]
      simp
      omega
  have h₁₂ := h₁.append h₂ (List.disjoint_singleton.2 hline)
  rwa [show k + (b.rowWords - k) = b.rowWords by omega] at h₁₂

/-- Filling rows leaves consecutive words in their elements. -/
theorem fill_rows {source : Endpoint} (l : List (Int × Nat)) :
    ∀ (base : Nat) (m : Machine w), (∀ p ∈ l, p.2 ≤ b.rowWords) → (namesOf (b.flowOf l)).Nodup →
      (∀ e ∈ b.flowOf l, ∀ d, e.kind = .queue d →
        m.store.queues e.name = [] ∧ m.store.depths e.name = d) →
      m.supply.Serves source word avail base →
      Supply.Enough short source avail (base + span b.rowWords l) →
      Outcome short (Filled (b.flowOf l) source word avail base (span b.rowWords l) m)
        (m.fill (b.rowInits source base l)) := by
  induction l with
  | nil =>
    intro base m _ _ _ hs _
    exact ⟨rfl, by simp [flowOf], hs, .refl ..⟩
  | cons p l ih =>
    obtain ⟨row, k⟩ := p
    intro base m hfit hnd hready hs hn
    have hk : k ≤ b.rowWords := hfit (row, k) List.mem_cons_self
    cases l with
    | nil => exact fill_blocks hs hn
    | cons next rest =>
      set below := next :: rest with hbelow
      have hflow : b.flowOf ((row, k) :: below) = b.rowElements row k ++ b.flowOf below := by
        simp [hbelow, flowOf, rowElements]
      have hspan : span b.rowWords ((row, k) :: below) = b.rowWords + span b.rowWords below := by
        simp [hbelow, span]
      have hops : b.rowInits source base ((row, k) :: below) =
          (b.loads source base row k ++ [.fill (b.line row) source (base + k) (b.rowWords - k)]) ++
            b.rowInits source (base + b.rowWords) below := by simp [hbelow, rowInits]
      rw [hflow] at hnd hready ⊢
      rw [hspan, ← Nat.add_assoc] at hn
      rw [hspan, hops, fill_append]
      rw [namesOf_append, List.nodup_append'] at hnd
      obtain ⟨hrow, hnd, hdisj⟩ := hnd
      rw [rowElements, namesOf_append, List.nodup_append'] at hrow
      obtain ⟨hempty, hdepth⟩ :=
        hready ⟨b.line row, row, .queue (b.queueDepth k)⟩ (by simp [rowElements]) _ rfl
      refine (fill_row hk (List.disjoint_singleton.1 hrow.2.2) hempty hdepth hs
        (hn.mono (by omega))).bind fun m₁ h₁ => ?_
      -- the rows below have not been touched
      have hready₁ : ∀ e ∈ b.flowOf below, ∀ d, e.kind = .queue d →
          m₁.store.queues e.name = [] ∧ m₁.store.depths e.name = d := by
        intro e he d hd
        rw [h₁.within.store.queues_eq _ fun h => hdisj h (name_mem_namesOf he),
          h₁.within.store.depths_eq]
        exact hready e (List.mem_append_right _ he) d hd
      exact (ih (base + b.rowWords) m₁ (fun p hp => hfit p (List.mem_cons_of_mem _ hp)) hnd
        hready₁ h₁.serves hn).mono fun m₂ h₂ => h₁.append h₂ hdisj

/-- Filling a whole buffer from the first word of its feed. -/
theorem fill_init (hl : b.Laid) (hfit : b.RowsFit) {start : Nat}
    (hready : ∀ e ∈ b.flow, ∀ d, e.kind = .queue d →
      m.store.queues e.name = [] ∧ m.store.depths e.name = d)
    (hs : m.supply.Serves feed.endpoint word avail 0)
    (hn : Supply.Enough short feed.endpoint avail (start + span b.rowWords b.blockCount)) :
    Outcome short
      (Filled b.flow feed.endpoint word avail start (span b.rowWords b.blockCount) m)
      (m.fill (discards feed start ++ b.rowInits feed.endpoint start b.blockCount)) := by
  have hnd := hl.nodup_flow
  rw [hl.flow_eq] at hnd hready ⊢
  rw [fill_append]
  -- a stream has to be brought to the first word of the window
  have hskip : Outcome short (fun m' => m'.supply.Serves feed.endpoint word avail start ∧
      m'.store = m.store ∧ m.Within [] [feed.endpoint] m') (m.fill (discards feed start)) := by
    unfold discards
    split
    · have hd := Supply.discard_serves hs (hn.mono (show 0 + start ≤ _ by omega))
      simp only [Machine.fill, List.foldlM_cons, List.foldlM_nil, bind_pure, InitOp.exec]
      refine hd.bind fun p hp => ⟨?_, rfl, .refl .., hp.2, rfl, rfl⟩
      rw [Nat.zero_add] at hp
      exact hp.1
    · next hno =>
      refine ⟨?_, rfl, .refl ..⟩
      cases hsrc : feed.endpoint with
      | memory buffer => rwa [hsrc] at hs
      | stream name =>
        rw [hsrc] at hno hs
        rwa [show start = 0 by simp [Endpoint.isStream] at hno; omega]
  refine hskip.bind fun m₁ hm₁ => ?_
  obtain ⟨hs₁, hstore, hw₁⟩ := hm₁
  exact (fill_rows b.blockCount start m₁ hfit hnd (by rwa [hstore]) hs₁ hn).mono fun m₂ h₂ =>
    ⟨h₂.contents, h₂.level, h₂.serves, (hw₁.mono (by simp)).trans h₂.within⟩

end LineBuffer

end GridSweep
