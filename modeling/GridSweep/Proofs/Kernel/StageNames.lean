import GridSweep.Proofs.Kernel.Channels
import GridSweep.Proofs.Kernel.PointFunction
import GridSweep.Proofs.LineBuffer.Addressing
import GridSweep.Proofs.LineBuffer.Streaming

/-!
# Names inside a stage

A stage declares the elements of its line buffers and the lane values it reads, and its other events
refer to elements by name. The names are made at several places: by the layout of a buffer, by its
filling, moving and draining, and by its lane reads. They agree: no name is given twice, and a name
that is used has been declared before, for an element of the kind that the use needs
(`Design.stage_names_declared`).
-/

namespace GridSweep

/-! ## Uses of names -/

def Element.isBlock (e : Element) : Bool :=
  match e.kind with
  | .block _ => true
  | .queue _ | .popped _ => false

def Element.isPopped (e : Element) : Bool :=
  match e.kind with
  | .popped _ => true
  | .block _ | .queue _ => false

/-- A name that an event uses, and the elements that it may be the name of. -/
structure Use where
  name : String
  accepts : Element → Bool

def InitOp.uses : InitOp → List Use
  | .discard .. => []
  | .load target .. => [⟨target, (·.isBlock)⟩]
  | .fill queue .. => [⟨queue, (·.isQueue)⟩]

/-- Lanes read registers, not queues. -/
def LaneRead.uses : LaneRead → List Use
  | .direct slice => [⟨slice.element, (!·.isQueue)⟩]
  | .switch _ low high => [⟨low.element, (!·.isQueue)⟩, ⟨high.element, (!·.isQueue)⟩]

def AdvanceOp.uses : AdvanceOp → List Use
  | .delay target source => [⟨target, (·.isPopped)⟩, ⟨source, (!·.isQueue)⟩]
  | .shift target source => [⟨target.name, (· = target)⟩, ⟨source.name, (· = source)⟩]
  | .fetch target .. => [⟨target.name, (· = target)⟩]

def DrainOp.uses : DrainOp → List Use
  | .queue name _ => [⟨name, (·.isQueue)⟩]
  | .surplus .. => []

namespace Event

/-- The names of elements that an event uses. -/
def uses : Event → List Use
  | .init op => op.uses
  | .laneRead _ read => read.uses
  | .advance op => op.uses
  | .drain op => op.uses
  | .declare _ | .beginLoop .. | .compute .. | .store .. | .endLoop => []

/-- The name that an event makes: an element's, or a lane value's. -/
def made? : Event → Option String
  | .declare e => some e.name
  | .laneRead tap _ => some tap
  | .init _ | .beginLoop .. | .compute .. | .store .. | .advance _ | .endLoop | .drain _ => none

end Event

/-- The elements have one that a use accepts. -/
def Use.Met (u : Use) (es : List Element) : Prop := ∃ e ∈ es, e.name = u.name ∧ u.accepts e = true

/-- Every name is declared before its use, for an element that the use accepts. -/
def DeclaredBeforeUse (events : List Event) : Prop :=
  ∀ (i : Nat) (e : Event), events[i]? = some e → ∀ u ∈ e.uses,
    ∃ x, .declare x ∈ events.take i ∧ x.name = u.name ∧ u.accepts x = true

theorem Use.Met.mono {u : Use} {es es' : List Element} (h : u.Met es) (hsub : es ⊆ es') :
    u.Met es' := by
  obtain ⟨e, he, hu⟩ := h
  exact ⟨e, hsub he, hu⟩

/-- A stage starts with its declarations. -/
theorem declaredBeforeUse_append {es : List Element} {rest : List Event}
    (h : ∀ e ∈ rest, ∀ u ∈ e.uses, u.Met es) : DeclaredBeforeUse (es.map .declare ++ rest) := by
  intro i e hget u hu
  by_cases hi : i < es.length
  · rw [List.getElem?_append_left (by simpa using hi), List.getElem?_map,
      Option.map_eq_some_iff] at hget
    obtain ⟨x, -, rfl⟩ := hget
    cases hu
  · rw [List.getElem?_append_right (by simpa using hi)] at hget
    obtain ⟨x, hx, hmet⟩ := h e (List.mem_of_getElem? hget) u hu
    refine ⟨x, ?_, hmet⟩
    rw [List.take_append, List.take_of_length_le (by simpa using hi)]
    exact List.mem_append_left _ (List.mem_map_of_mem hx)

namespace StageCode

variable {p : StageCode}

theorem declaredBeforeUse (hinits : ∀ op ∈ p.inits, ∀ u ∈ op.uses, u.Met p.declares)
    (hreads : ∀ r ∈ p.reads, ∀ u ∈ r.2.uses, u.Met p.declares)
    (hmoves : ∀ op ∈ p.moves, ∀ u ∈ op.uses, u.Met p.declares)
    (hdrains : ∀ op ∈ p.drains, ∀ u ∈ op.uses, u.Met p.declares) : DeclaredBeforeUse p.events := by
  refine declaredBeforeUse_append fun e he => ?_
  simp only [List.mem_append, List.mem_cons, List.mem_map] at he
  rcases he with ⟨op, hop, rfl⟩ | rfl | ⟨r, hr, rfl⟩ | rfl | rfl | ⟨op, hop, rfl⟩ | rfl |
    ⟨op, hop, rfl⟩
  · exact hinits op hop
  · exact List.forall_mem_nil _
  · exact hreads r hr
  · exact List.forall_mem_nil _
  · exact List.forall_mem_nil _
  · exact hmoves op hop
  · exact List.forall_mem_nil _
  · exact hdrains op hop

theorem filterMap_made? (p : StageCode) :
    p.events.filterMap Event.made? = namesOf p.declares ++ p.reads.map (·.1) := by
  simp [events, Event.made?, namesOf, List.filterMap_append, List.filterMap_cons,
    List.filterMap_map, Function.comp_def]

end StageCode

/-! ## Uses of one buffer's elements -/

namespace LineBuffer

variable {b : LineBuffer} {f : Feed}

theorem met_blockName (hl : b.Laid) {row : Int} {n i : Nat} (hrow : (row, n) ∈ b.blockCount)
    (hi : i < n) {accepts : Element → Bool}
    (haccepts : accepts ⟨b.blockName row i, row, .block i⟩ = true) :
    Use.Met ⟨b.blockName row i, accepts⟩ b.storage := by
  refine ⟨_, List.mem_append_left _ ?_, rfl, haccepts⟩
  rw [hl.flow_eq]
  exact block_mem_flowOf hrow hi

theorem Keeps.met {row q : Int} {name : String} (h : b.Keeps row q name) :
    Use.Met ⟨name, (!·.isQueue)⟩ b.storage := by
  rcases h with ⟨-, -, hmem⟩ | ⟨-, -, -, hmem⟩
  · exact ⟨_, hmem, rfl, rfl⟩
  · exact ⟨_, hmem, rfl, rfl⟩

/-- Rows are filled in the order in which they are laid out. -/
theorem met_rowInits {source : Endpoint} {base : Nat} {l : List (Int × Nat)} :
    ∀ op ∈ b.rowInits source base l, ∀ u ∈ op.uses, u.Met (b.flowOf l) := by
  have hloads {base : Nat} {row : Int} {k : Nat} :
      ∀ op ∈ b.loads source base row k, ∀ u ∈ op.uses, u.Met (b.blockElements row k) := by
    intro op hop u hu
    obtain ⟨i, hi, rfl⟩ := List.mem_map.1 hop
    cases List.mem_singleton.1 hu
    exact ⟨_, List.mem_map_of_mem hi, rfl, rfl⟩
  induction l generalizing base with
  | nil => exact List.forall_mem_nil _
  | cons p below ih =>
    cases below with
    | nil => exact hloads
    | cons next rest =>
      intro op hop u hu
      rcases List.mem_append.1 hop with hop | hop
      · exact (hloads op hop u hu).mono (List.subset_append_left ..)
      rcases List.mem_cons.1 hop with rfl | hop
      · cases List.mem_singleton.1 hu
        exact ⟨_, List.mem_append_right _ List.mem_cons_self, rfl, rfl⟩
      · exact (ih op hop u hu).mono fun e he =>
          List.mem_append_right _ (List.mem_cons_of_mem _ he)

theorem met_init (hl : b.Laid) {ops : List InitOp} (h : b.init f = .ok ops) :
    ∀ op ∈ ops, ∀ u ∈ op.uses, u.Met b.storage := by
  obtain ⟨-, rfl⟩ := init_eq_ok hl h
  intro op hop u hu
  rcases List.mem_append.1 hop with hop | hop
  · unfold discards at hop
    split at hop
    · cases List.mem_singleton.1 hop
      cases hu
    · cases hop
  · rw [storage, hl.flow_eq]
    exact (met_rowInits op hop u hu).mono (List.subset_append_left ..)

theorem met_shifts {es : List Element} :
    ∀ op ∈ shifts es, ∀ u ∈ op.uses, u.Met es := by
  fun_induction shifts es with
  | case1 target source rest ih =>
    intro op hop u hu
    rcases List.mem_cons.1 hop with rfl | hop
    · simp only [AdvanceOp.uses, List.mem_cons, List.not_mem_nil, or_false] at hu
      rcases hu with rfl | rfl
      · exact ⟨target, by simp, rfl, decide_eq_true rfl⟩
      · exact ⟨source, by simp, rfl, decide_eq_true rfl⟩
    · exact (ih op hop u hu).mono (List.subset_cons_self ..)
  | case2 => exact List.forall_mem_nil _

/-- A popped register stands in front of a block. -/
theorem met_delays (hl : b.Laid) : ∀ op ∈ b.delays, ∀ u ∈ op.uses, u.Met b.storage := by
  rw [hl.delays_eq]
  intro op hop u hu
  obtain ⟨row, hrow, rfl⟩ := List.mem_map.1 hop
  simp only [AdvanceOp.uses, List.mem_cons, List.not_mem_nil, or_false] at hu
  rcases hu with rfl | rfl
  · rcases HasWord.keeps hl (.inr ⟨rfl, hrow⟩) with ⟨hneg, -⟩ | ⟨-, -, -, hmem⟩
    · omega
    · exact ⟨_, hmem, rfl, rfl⟩
  · obtain ⟨p, hp, rfl⟩ := List.mem_map.1 hrow
    obtain ⟨k, hk⟩ := hl.pops_blocks p (List.mem_filter.1 hp).1
    exact met_blockName hl hk (Nat.succ_pos k) rfl

theorem met_advance (hl : b.Laid) {trips : Nat} {ops : List AdvanceOp}
    (h : b.advance f trips = .ok ops) : ∀ op ∈ ops, ∀ u ∈ op.uses, u.Met b.storage := by
  obtain ⟨-, last, hlast, rfl⟩ := hl.advance_eq_ok h
  intro op hop u hu
  simp only [List.mem_append, List.mem_singleton] at hop
  rcases hop with hop | hop | rfl
  · exact met_delays hl op hop u hu
  · exact (met_shifts op hop u hu).mono (List.subset_append_left ..)
  · cases List.mem_singleton.1 hu
    exact ⟨last, List.mem_append_left _ (List.mem_of_getLast? hlast), rfl, decide_eq_true rfl⟩

theorem met_drains (hl : b.Laid) {repeated : Bool} {trips : Nat} {ops : List DrainOp}
    (h : Generate.drains repeated trips b f = .ok ops) :
    ∀ op ∈ ops, ∀ u ∈ op.uses, u.Met b.storage := by
  obtain rfl := Generate.drains_eq_ok h
  intro op hop u hu
  rcases List.mem_append.1 hop with hop | hop
  · split at hop
    · rw [hl.drain_eq] at hop
      obtain ⟨e, he, rfl⟩ := List.mem_map.1 hop
      obtain ⟨he, hq⟩ := List.mem_filter.1 he
      cases List.mem_singleton.1 hu
      exact ⟨e, List.mem_append_left _ he, rfl, hq⟩
    · cases hop
  · split at hop
    · cases List.mem_singleton.1 hop
      cases hu
    · cases hop

/-- A word that lanes read is in a register of its row. -/
theorem hasWord_of_wordElement (hl : b.Laid) {row word : Int} {x : String}
    (h : b.wordElement row word = .ok x) : b.HasWord row word := by
  rcases wordElement_eq_ok h with ⟨hnn, hlt, -⟩ | ⟨hneg, hlt, -⟩
  · exact .inl ⟨hnn, hlt⟩
  · have hpos : 0 < b.pops row := by omega
    have hone : b.pops row ≤ 1 := by
      unfold pops at hpos ⊢
      cases hget : Ordered.get? row b.popCount with
      | none => simp
      | some n => exact hl.pops_le_one _ (mem_of_get? hget)
    exact .inr ⟨by omega, (pops_pos_iff hl row).1 hpos⟩

theorem met_wordElement (hl : b.Laid) {row word : Int} {x : String}
    (h : b.wordElement row word = .ok x) : Use.Met ⟨x, (!·.isQueue)⟩ b.storage := by
  have hword := hasWord_of_wordElement hl h
  rw [hword.wordElement_eq hl] at h
  cases h
  exact (hword.keeps hl).met

theorem met_laneRead (hl : b.Laid) {o : Offset} {read : LaneRead}
    (h : b.laneRead o = .ok read) : ∀ u ∈ read.uses, u.Met b.storage := by
  rcases laneRead_eq_ok h with ⟨_, _, rfl, hlow⟩ | ⟨_, _, _, _, _, rfl, hlow, hhigh⟩
  · simpa [LaneRead.uses] using met_wordElement hl hlow
  · simpa [LaneRead.uses] using ⟨met_wordElement hl hlow, met_wordElement hl hhigh⟩

end LineBuffer

/-! ## Lane values -/

namespace Generate

variable {target : Accelerator} {s : Stencil} {m : List (String × LineBuffer)} {plan : Plan}
  {design : Design} {kernel : Kernel} {stage : Stage} {events : List Event}

/-- A stencil without inputs has no lane reads. -/
theorem laneReads_eq_nil {forward : Option Forward} (hm : ∀ v, Ordered.get? v m = none)
    (h : laneReads s m forward = .ok events) : events = [] := by
  unfold laneReads at h
  obtain ⟨reads, hreads, h⟩ := bind_eq_ok.1 h
  rw [mapM_eq_ok_iff] at hreads
  have hnil : reads = [] := by
    generalize s.taps = taps at hreads
    cases hreads with
    | nil => rfl
    | cons hhead _ =>
      rw [hm] at hhead
      cases hhead
  rw [hm, hnil] at h
  cases forward <;> cases h <;> rfl

/-- Every lane value is read from the line buffer of an input, at a row and a column. -/
theorem Built.port_pair (h : Built target s m plan design) (hrefs : Ascending s.refs) {t : Tap}
    {b : LineBuffer} (ht : t ∈ ports target s) (hb : Ordered.get? t.var m = some b) :
    t.offset.length = 2 ∧ t.name = Offset.tapName t.var t.offset := by
  rcases List.mem_append.1 ht with ht | ht
  · obtain ⟨⟨os, hos, ho⟩, hname⟩ := Stencil.mem_taps.1 ht
    obtain ⟨offsets, -, hget, -, htwo, -⟩ := buffer_ok ((get?_buffers h.lineBuffers t.var).2 b hb).2
    cases hget.symm.trans (hrefs.get? hos)
    rw [htwo t.offset ho]
    exact ⟨rfl, by rw [← htwo t.offset ho]; exact hname⟩
  · split at ht
    · cases List.mem_singleton.1 ht
      exact ⟨rfl, rfl⟩
    · cases ht

/-- The value that is read for forwarding only is not among the taps. -/
theorem nodup_ports (hrefs : Ascending s.refs) (hoffsets : ∀ p ∈ s.refs, p.2.Pairwise (· < ·))
    (hpair : ∀ t ∈ ports target s, t.offset.length = 2 ∧ t.name = Offset.tapName t.var t.offset) :
    ((ports target s).map (·.name)).Nodup := by
  have htaps : (s.taps.map (·.name)).Nodup := by
    refine Stencil.nodup_tapNames hrefs hoffsets fun v o ho => ?_
    have htap : (⟨v, o, Offset.tapName v o⟩ : Tap) ∈ s.taps := Stencil.mem_taps.2 ⟨ho, rfl⟩
    exact (hpair _ (List.mem_append_left _ htap)).1
  unfold ports
  split
  · next hextra =>
    rw [List.map_append]
    refine htaps.append (List.nodup_singleton _) fun name hname hsame => ?_
    cases List.mem_singleton.1 hsame
    obtain ⟨t, ht, hname⟩ := List.mem_map.1 hname
    obtain ⟨r, c, hrc⟩ := List.length_eq_two.1 (hpair t (List.mem_append_left _ ht)).1
    obtain ⟨⟨os, hos, ho⟩, htap⟩ := Stencil.mem_taps.1 ht
    dsimp only at hname
    rw [htap, hrc] at hname
    obtain ⟨hvar, rfl, rfl⟩ := Offset.tapName_inj hname
    -- the iterated variable would be read at the output point
    unfold forward? hasExtra at hextra
    split at hextra
    · cases hextra
    · have hget : s.refs.get? s.iteratedVar = some os := by
        rw [← hvar]
        exact hrefs.get? hos
      have hread : os.any (·.isOrigin) = true := List.any_eq_true.2 ⟨t.offset, ho, by rw [hrc]; rfl⟩
      simp [hget, hread] at hextra
  · rwa [List.append_nil]

/-- The lane reads of a stage have names of their own, and read the line buffers. -/
theorem Built.exists_reads (h : Built target s m plan design) (hrefs : Ascending s.refs)
    (hoffsets : ∀ p ∈ s.refs, p.2.Pairwise (· < ·))
    (hreads : laneReads s m (forward? target s) = .ok events) :
    ∃ reads : List (String × LaneRead), events = reads.map (fun r => .laneRead r.1 r.2) ∧
      (reads.map (·.1)).Nodup ∧ ∀ r ∈ reads, (∃ v row col, r.1 = Offset.tapName v [row, col]) ∧
        ∃ b ∈ ordered s m, ∃ o, b.laneRead o = .ok r.2 := by
  by_cases hne : s.inputVars = []
  · have hm : ∀ v, Ordered.get? v m = none := by
      intro v
      refine Option.eq_none_iff_forall_ne_some.2 fun b hb => ?_
      have hv := ((get?_buffers h.lineBuffers v).2 b hb).1
      rw [hne] at hv
      cases hv
    exact ⟨[], laneReads_eq_nil hm hreads, List.nodup_nil, List.forall_mem_nil _⟩
  · obtain ⟨b₀, -, hb₀, -⟩ := h.exists_buffer (iteratedVar_mem hne)
    obtain ⟨reads, rfl, hports⟩ := laneReads_ok h.dims ⟨b₀, hb₀⟩ hreads
    have hpair : ∀ t ∈ ports target s,
        t.offset.length = 2 ∧ t.name = Offset.tapName t.var t.offset := by
      intro t ht
      obtain ⟨r, -, -, b, hb, -⟩ := exists_right_of_forall₂ hports ht
      exact h.port_pair hrefs ht hb
    have hnames : (ports target s).map (·.name) = reads.map (·.1) := by
      rw [← List.forall₂_eq_eq_eq, List.forall₂_map_left_iff, List.forall₂_map_right_iff]
      exact hports.imp fun _ _ ht => ht.1.symm
    refine ⟨reads, rfl, hnames ▸ nodup_ports hrefs hoffsets hpair, fun r hr => ?_⟩
    obtain ⟨t, ht, hname, b, hb, hread⟩ := exists_left_of_forall₂ hports hr
    obtain ⟨htwo, htap⟩ := hpair t ht
    obtain ⟨row, col, hrc⟩ := List.length_eq_two.1 htwo
    exact ⟨⟨t.var, row, col, by rw [hname, htap, hrc]⟩, b, h.mem_ordered (mem_of_get? hb),
      t.offset, hread⟩

/-! ## Stages -/

theorem Built.stage_names (h : Built target s m plan design) (hnodup : s.inputVars.Nodup)
    (hrefs : Ascending s.refs) (hoffsets : ∀ p ∈ s.refs, p.2.Pairwise (· < ·))
    (hkernel : kernel ∈ design.kernels) (hstage : stage ∈ kernel.stages) :
    (stage.events.filterMap Event.made?).Nodup ∧ DeclaredBeforeUse stage.events := by
  obtain ⟨n, hget⟩ := List.getElem?_of_mem hstage
  obtain ⟨-, hone⟩ := h.stage_at hkernel hget
  obtain ⟨inits, events, moves, drained, hinits, hevents, hmoves, hdrained, hcode⟩ := stage_ok hone
  obtain ⟨reads, rfl, hnames, hreads⟩ := h.exists_reads hrefs hoffsets hevents
  rw [hcode reads rfl]
  have hlaid {b : LineBuffer} (hb : b ∈ ordered s m) : b.Laid := (h.placed hb).laid
  have hlift {b : LineBuffer} (hb : b ∈ ordered s m) {u : Use} (hu : u.Met b.storage) :
      u.Met ((ordered s m).flatMap (·.storage)) :=
    hu.mono fun e he => List.mem_flatMap.2 ⟨b, hb, he⟩
  constructor
  · rw [StageCode.filterMap_made?]
    refine (LineBuffer.nodup_storages (by rwa [h.vars_ordered]) fun b hb => hlaid hb).append hnames
      fun name hname hread => ?_
    obtain ⟨e, he, rfl⟩ := List.mem_map.1 hname
    obtain ⟨b, hb, he⟩ := List.mem_flatMap.1 he
    obtain ⟨p, hp⟩ := (hlaid hb).exists_part (LineBuffer.name_mem_namesOf he)
    obtain ⟨r, hr, hsame⟩ := List.mem_map.1 hread
    obtain ⟨⟨v, row, col, htap⟩, -⟩ := hreads r hr
    exact b.partName_ne_tapName p v row col (by rw [← hp, ← htap, hsame])
  · refine StageCode.declaredBeforeUse ?_ ?_ ?_ ?_
    · intro op hop u hu
      obtain ⟨ops, hops, hop⟩ := List.mem_flatten.1 hop
      obtain ⟨b, hb, hinit⟩ := exists_left_of_forall₂ hinits hops
      exact hlift hb (LineBuffer.met_init (hlaid hb) hinit op hop u hu)
    · intro r hr u hu
      obtain ⟨-, b, hb, o, hread⟩ := hreads r hr
      exact hlift hb (LineBuffer.met_laneRead (hlaid hb) hread u hu)
    · intro op hop u hu
      obtain ⟨ops, hops, hop⟩ := List.mem_flatten.1 hop
      obtain ⟨b, hb, hmove⟩ := exists_left_of_forall₂ hmoves hops
      exact hlift hb (LineBuffer.met_advance (hlaid hb) hmove op hop u hu)
    · intro op hop u hu
      obtain ⟨ops, hops, hop⟩ := List.mem_flatten.1 hop
      obtain ⟨b, hb, hdrain⟩ := exists_left_of_forall₂ hdrained hops
      exact hlift hb (LineBuffer.met_drains (hlaid hb) hdrain op hop u hu)

end Generate

/-- In every stage the names of elements and lane values are different, and every element is
declared before its name is used. -/
theorem Design.stage_names_declared {s : Stencil} {target : Accelerator} {design : Design}
    (hnodup : s.inputVars.Nodup) (hrefs : Ascending s.refs)
    (hoffsets : ∀ p ∈ s.refs, p.2.Pairwise (· < ·)) (h : s.generate target = .ok design) :
    ∀ kernel ∈ design.kernels, ∀ stage ∈ kernel.stages,
      (stage.events.filterMap Event.made?).Nodup ∧ DeclaredBeforeUse stage.events := by
  obtain ⟨m, plan, hbuilt⟩ := Generate.built_of_generate h
  exact fun _ hkernel _ hstage => hbuilt.stage_names hnodup hrefs hoffsets hkernel hstage

/-- Inputs named like parts of each other:
`output b(0, 0) = a(-1, 0) + a(0, -1) + a(1, 0) + a_line(0, 0) + a_line_0(0, 1)`. -/
def lookalikes : Stencil where
  iterate := 2
  kernelName := "k"
  partitions := 1
  size := [8, 48]
  inputVars := ["a_line_0", "a_line", "a"]
  outputVar := "b"
  outputIdx := [0, 0]
  output :=
    { target := ⟨"b", [0, 0]⟩
      bindings := []
      value := .chain .sum [.operand (.ref ⟨"a", [-1, 0]⟩), .operand (.ref ⟨"a", [0, -1]⟩),
        .operand (.ref ⟨"a", [1, 0]⟩), .operand (.ref ⟨"a_line", [0, 0]⟩),
        .operand (.ref ⟨"a_line_0", [0, 1]⟩)] ["+", "+", "+", "+"] }
  refs := [("a", [[-1, 0], [0, -1], [1, 0]]), ("a_line", [[0, 0]]), ("a_line_0", [[0, 1]])]
  scalars := []

theorem lookalikes_generated : ∃ design kernel stage, lookalikes.generate .standard = .ok design ∧
    kernel ∈ design.kernels ∧ stage ∈ kernel.stages ∧
    (stage.events.filterMap Event.made?).take 3 =
      ["a_line_0_line_0_block_0", "a_line_0_line_0_block_1", "a_line_line_0_block_0"] :=
  ⟨_, _, _, rfl, List.mem_cons_self, List.mem_cons_self, rfl⟩

theorem lookalikes_named_apart : ∃ design kernel stage, lookalikes.generate .standard = .ok design ∧
    kernel ∈ design.kernels ∧ stage ∈ kernel.stages ∧
    (stage.events.filterMap Event.made?).take 3 =
      ["a_line_0_line_0_block_0", "a_line_0_line_0_block_1", "a_line_line_0_block_0"] ∧
    (stage.events.filterMap Event.made?).Nodup ∧ DeclaredBeforeUse stage.events := by
  obtain ⟨design, kernel, stage, hdesign, hkernel, hstage, hfirst⟩ := lookalikes_generated
  have hrefs : Ascending lookalikes.refs := by decide +kernel
  exact ⟨design, kernel, stage, hdesign, hkernel, hstage, hfirst,
    Design.stage_names_declared (by decide) hrefs (by decide) hdesign kernel hkernel stage hstage⟩

end GridSweep
