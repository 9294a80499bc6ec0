import GridSweep.Proofs.Kernel.Generated

/-!
# The words that a stage takes and stores

A stage takes words from its feeds and stores words at its target. `Stage.taken` and `Stage.stored`
list them for one endpoint in the order of the execution, with the turns of the loop one after the
other. For a generated stage they come from its line buffers (`Built.exists_code`).
-/

namespace GridSweep

/-- The words that an event takes in loop step `step`, by source and position. -/
def Event.taken (step : Nat) : Event → List (Endpoint × Option Nat)
  | .init op => op.taken
  | .advance op => op.taken step
  | .drain op => op.taken
  | _ => []

/-- The words that an event stores in loop step `step`, by target and position. -/
def Event.stored (step : Nat) : Event → List (Endpoint × Nat)
  | .store target first => [(target, first + step)]
  | _ => []

/-- The events of a stage as they are executed, each with its loop step. -/
def executed (es : List Event) : List (Nat × Event) :=
  (es.takeWhile (!·.isBeginLoop)).map (0, ·) ++
    match es.dropWhile (!·.isBeginLoop) with
    | .beginLoop trips _ :: inside =>
      ((List.range trips).flatMap fun i => (inside.takeWhile (!·.isEndLoop)).map (i, ·)) ++
        ((inside.dropWhile (!·.isEndLoop)).drop 1).map (0, ·)
    | _ => []

/-- The entries of one endpoint. -/
def entriesOf {α : Type} (e : Endpoint) (xs : List (Endpoint × α)) : List α :=
  (xs.filter (·.1 = e)).map (·.2)

namespace Stage

/-- The positions of the words that are taken from a source. -/
def taken (stage : Stage) (source : Endpoint) : List (Option Nat) :=
  entriesOf source ((executed stage.events).flatMap fun e => e.2.taken e.1)

/-- The positions of the words that are stored at a target. -/
def stored (stage : Stage) (target : Endpoint) : List Nat :=
  entriesOf target ((executed stage.events).flatMap fun e => e.2.stored e.1)

end Stage

/-! ## Entries of an endpoint -/

section Entries

variable {α β : Type} {e : Endpoint} {xs ys : List (Endpoint × α)}

theorem entriesOf_append : entriesOf e (xs ++ ys) = entriesOf e xs ++ entriesOf e ys := by
  simp [entriesOf]

theorem entriesOf_flatMap (l : List β) (f : β → List (Endpoint × α)) :
    entriesOf e (l.flatMap f) = l.flatMap fun b => entriesOf e (f b) := by
  induction l with
  | nil => rfl
  | cons b l ih => rw [List.flatMap_cons, entriesOf_append, ih, List.flatMap_cons]

theorem entriesOf_self (h : ∀ x ∈ xs, x.1 = e) : entriesOf e xs = xs.map (·.2) := by
  unfold entriesOf
  rw [List.filter_eq_self.2 fun x hx => decide_eq_true (h x hx)]

theorem entriesOf_of_ne (h : ∀ x ∈ xs, x.1 ≠ e) : entriesOf e xs = [] := by
  unfold entriesOf
  rw [List.filter_eq_nil_iff.2 fun x hx => by simpa using h x hx]
  rfl

/-- Only one of several sources has entries at its own endpoint. -/
theorem entriesOf_flatMap_of_nodup {l : List β} {f : β → List (Endpoint × α)} {place : β → Endpoint}
    (hnodup : (l.map place).Nodup) (hf : ∀ b ∈ l, ∀ x ∈ f b, x.1 = place b) {b : β} (hb : b ∈ l) :
    entriesOf (place b) (l.flatMap f) = (f b).map (·.2) := by
  induction l with
  | nil => cases hb
  | cons c l ih =>
    obtain ⟨hc, hnodup⟩ := List.nodup_cons.1 hnodup
    rw [List.flatMap_cons, entriesOf_append]
    rcases List.mem_cons.1 hb with rfl | hb
    · have hrest : entriesOf (place b) (l.flatMap f) = [] := by
        refine entriesOf_of_ne fun x hx heq => ?_
        obtain ⟨d, hd, hx⟩ := List.mem_flatMap.1 hx
        exact hc (List.mem_map.2 ⟨d, hd, (hf d (List.mem_cons_of_mem _ hd) x hx).symm.trans heq⟩)
      rw [hrest, List.append_nil, entriesOf_self (hf b List.mem_cons_self)]
    · have hhead : entriesOf (place b) (f c) = [] := by
        refine entriesOf_of_ne fun x hx heq => ?_
        rw [hf c List.mem_cons_self x hx] at heq
        exact hc (List.mem_map.2 ⟨b, hb, heq.symm⟩)
      rw [hhead, List.nil_append]
      exact ih hnodup (fun d hd => hf d (List.mem_cons_of_mem _ hd)) hb

end Entries

/-! ## The events of a stage -/

namespace StageCode

variable (p : StageCode)

theorem flatMap_executed {α : Type} (f : Nat → Event → List α) :
    ((executed p.events).flatMap fun e => f e.1 e.2) =
      p.front.flatMap (f 0) ++ (((List.range p.trips).flatMap fun i => p.body.flatMap (f i)) ++
        (p.drains.map Event.drain).flatMap (f 0)) := by
  obtain ⟨hfront, hloop, hbody, hend⟩ := p.split_events
  unfold executed
  rw [hfront, hloop]
  simp only [hbody, hend, List.drop_one, List.tail_cons, List.flatMap_append, List.flatMap_assoc,
    List.flatMap_map]

theorem taken_executed : ((executed p.events).flatMap fun e => e.2.taken e.1) =
    p.inits.flatMap InitOp.taken ++
      (((List.range p.trips).flatMap fun i => p.moves.flatMap (AdvanceOp.taken i)) ++
        p.drains.flatMap DrainOp.taken) := by
  have hfront : p.front.flatMap (Event.taken 0) = p.inits.flatMap InitOp.taken := by
    unfold front
    rw [List.flatMap_append, List.flatMap_map, List.flatMap_map]
    exact congrArg (· ++ _) (List.flatMap_eq_nil_iff.2 fun _ _ => rfl)
  have hbody : ∀ i, p.body.flatMap (Event.taken i) = p.moves.flatMap (AdvanceOp.taken i) := by
    intro i
    unfold body
    rw [List.flatMap_append, List.flatMap_map, List.flatMap_cons, List.flatMap_cons,
      List.flatMap_map]
    exact congrArg (· ++ _) (List.flatMap_eq_nil_iff.2 fun _ _ => rfl)
  rw [p.flatMap_executed fun i e => e.taken i, hfront, List.flatMap_map]
  simp only [hbody]
  rfl

theorem stored_executed : ((executed p.events).flatMap fun e => e.2.stored e.1) =
    (List.range p.trips).map fun i => (p.target, p.first + i) := by
  have hfront : p.front.flatMap (Event.stored 0) = [] := by
    refine List.flatMap_eq_nil_iff.2 fun e he => ?_
    rcases List.mem_append.1 he with h | h <;> obtain ⟨x, -, rfl⟩ := List.mem_map.1 h <;> rfl
  have hbody : ∀ i, p.body.flatMap (Event.stored i) = [(p.target, p.first + i)] := by
    intro i
    have hreads : (p.reads.map fun r => Event.laneRead r.1 r.2).flatMap (Event.stored i) = [] := by
      rw [List.flatMap_map]
      exact List.flatMap_eq_nil_iff.2 fun _ _ => rfl
    have hmoves : (p.moves.map Event.advance).flatMap (Event.stored i) = [] := by
      rw [List.flatMap_map]
      exact List.flatMap_eq_nil_iff.2 fun _ _ => rfl
    unfold body
    rw [List.flatMap_append, hreads, List.flatMap_cons, List.flatMap_cons, hmoves]
    rfl
  have hdrains : (p.drains.map Event.drain).flatMap (Event.stored 0) = [] := by
    rw [List.flatMap_map]
    exact List.flatMap_eq_nil_iff.2 fun _ _ => rfl
  rw [p.flatMap_executed fun i e => e.stored i, hfront, hdrains, List.nil_append, List.append_nil,
    List.map_eq_flatMap]
  simp only [hbody]

variable {p}

theorem mem_taken {e : Event} (he : e ∈ p.events) {step : Nat} {x : Endpoint × Option Nat}
    (hx : x ∈ e.taken step) : x ∈ p.inits.flatMap InitOp.taken ∨
      x ∈ p.moves.flatMap (AdvanceOp.taken step) ∨ x ∈ p.drains.flatMap DrainOp.taken := by
  simp only [events, List.mem_append, List.mem_cons, List.mem_map] at he
  rcases he with ⟨_, -, rfl⟩ | ⟨op, hop, rfl⟩ | rfl | ⟨_, -, rfl⟩ | rfl | rfl | ⟨op, hop, rfl⟩ |
    rfl | ⟨op, hop, rfl⟩
  · cases hx
  · exact .inl (List.mem_flatMap.2 ⟨op, hop, hx⟩)
  · cases hx
  · cases hx
  · cases hx
  · cases hx
  · exact .inr (.inl (List.mem_flatMap.2 ⟨op, hop, hx⟩))
  · cases hx
  · exact .inr (.inr (List.mem_flatMap.2 ⟨op, hop, hx⟩))

theorem mem_stored {e : Event} (he : e ∈ p.events) {step : Nat} {x : Endpoint × Nat}
    (hx : x ∈ e.stored step) : x = (p.target, p.first + step) := by
  simp only [events, List.mem_append, List.mem_cons, List.mem_map] at he
  rcases he with ⟨_, -, rfl⟩ | ⟨_, -, rfl⟩ | rfl | ⟨_, -, rfl⟩ | rfl | rfl | ⟨_, -, rfl⟩ | rfl |
    ⟨_, -, rfl⟩
  case inr.inr.inr.inr.inr.inl => exact List.mem_singleton.1 hx
  all_goals cases hx

end StageCode

/-! ## Generated stages -/

namespace Generate

variable {target : Accelerator} {s : Stencil} {m : List (String × LineBuffer)} {plan : Plan}
  {design : Design} {point : PointFunction} {range : StageRange} {stage : Stage} {b : LineBuffer}
  {kernel : Kernel} {n : Nat}

/-- The feed of a line buffer in a stage. -/
def feedOf (target : Accelerator) (s : Stencil) (plan : Plan) (range : StageRange)
    (b : LineBuffer) : Feed :=
  feed plan range b.var s.iteratedVar (s.gridCols / target.lanes)

/-- Code whose words come from the line buffers of a stage. -/
structure CodeOf (target : Accelerator) (s : Stencil) (m : List (String × LineBuffer))
    (plan : Plan) (range : StageRange) (stage : Stage) (code : StageCode) : Prop where
  events : stage.events = code.events
  trips : code.trips = stage.tripCount
  tripCount : stage.tripCount = range.validRows * (s.gridCols / target.lanes)
  feeds : stage.feeds = (ordered s m).map fun b => (b.var, feedOf target s plan range b)
  output : stage.output = (stageOutput s range (s.gridCols / target.lanes)).1
  stores : (code.target, code.first) = stageOutput s range (s.gridCols / target.lanes)
  inits_ok : ∀ b ∈ ordered s m, ∃ ops, b.init (feedOf target s plan range b) = .ok ops
  fetches_ok : ∀ b ∈ ordered s m, b.firstFetch (feedOf target s plan range b) =
    .ok (b.firstWord (feedOf target s plan range b))
  inits : code.inits.flatMap InitOp.taken =
    (ordered s m).flatMap fun b => b.filled (feedOf target s plan range b)
  moves : ∀ i, code.moves.flatMap (AdvanceOp.taken i) = (ordered s m).flatMap fun b =>
    b.fetched (feedOf target s plan range b) stage.tripCount i
  drains : code.drains.flatMap DrainOp.taken = (ordered s m).flatMap fun b =>
    b.leftover (feedOf target s plan range b) stage.tripCount

theorem flatMap_flatten_of_forall₂ {α β γ : Type} {R : α → List β → Prop} {xs : List α}
    {ops : List (List β)} (h : List.Forall₂ R xs ops) {f : β → List γ} {g : α → List γ}
    (hg : ∀ x ∈ xs, ∀ l, R x l → l.flatMap f = g x) : ops.flatten.flatMap f = xs.flatMap g := by
  induction h with
  | nil => rfl
  | @cons x l xs ops hx _ ih =>
    rw [List.flatten_cons, List.flatMap_append, List.flatMap_cons, hg x List.mem_cons_self l hx,
      ih fun y hy => hg y (List.mem_cons_of_mem _ hy)]

theorem taken_drains {f : Feed} {repeated : Bool} {trips : Nat} {ops : List DrainOp}
    (h : drains repeated trips b f = .ok ops) :
    ops.flatMap DrainOp.taken = b.leftover f trips := by
  obtain rfl := drains_eq_ok h
  have hqueues : ∀ (counts : List (Int × Nat)) (es : List Element),
      (b.drainQueues counts es).flatMap DrainOp.taken = [] := by
    intro counts es
    fun_induction LineBuffer.drainQueues b counts es with
    | case1 => rfl
    | case2 counts e es below blocks ih => rw [List.flatMap_cons, ih]; rfl
  have hdrain : (if repeated then b.drain else []).flatMap DrainOp.taken = [] := by
    split
    · exact hqueues ..
    · rfl
  rw [List.flatMap_append, hdrain, List.nil_append]
  unfold LineBuffer.leftover
  by_cases hs : f.endpoint.isStream
  · rw [if_pos hs]
    split
    · rw [List.flatMap_singleton]
      rfl
    · next hnone =>
      rw [Nat.eq_zero_of_not_pos fun hpos => hnone ⟨hs, hpos⟩]
      rfl
  · rw [if_neg hs, if_neg fun hall => hs hall.1]
    rfl

theorem stage_fields {forward : Option Forward}
    (h : Generate.stage target s plan point m forward range = .ok stage) :
    stage.tripCount = range.validRows * (s.gridCols / target.lanes) ∧
      stage.feeds = (ordered s m).map (fun b => (b.var, feedOf target s plan range b)) ∧
      stage.output = (stageOutput s range (s.gridCols / target.lanes)).1 := by
  unfold Generate.stage at h
  obtain ⟨inits, -, h⟩ := bind_eq_ok.1 h
  obtain ⟨reads, -, h⟩ := bind_eq_ok.1 h
  obtain ⟨moves, -, h⟩ := bind_eq_ok.1 h
  obtain ⟨drained, -, h⟩ := bind_eq_ok.1 h
  cases h
  exact ⟨rfl, List.zip_map' .., rfl⟩

theorem Built.exists_code (h : Built target s m plan design) (hne : s.inputVars ≠ [])
    (hstage : Generate.stage target s plan point m (forward? target s) range = .ok stage) :
    ∃ code, CodeOf target s m plan range stage code := by
  obtain ⟨inits, reads, moves, drained, hinits, hreads, hmoves, hdrained, hevents⟩ :=
    stage_ok hstage
  obtain ⟨b, -, hget, -⟩ := h.exists_buffer (iteratedVar_mem hne)
  obtain ⟨taps, rfl, -⟩ := laneReads_ok h.dims ⟨b, hget⟩ hreads
  obtain ⟨htrips, hfeeds, houtput⟩ := stage_fields hstage
  refine ⟨_, hevents taps rfl, htrips.symm, htrips, hfeeds, houtput, rfl, fun b hb => ?_,
    fun b hb => ?_, ?_, fun i => ?_, ?_⟩
  · obtain ⟨ops, -, hops⟩ := exists_right_of_forall₂ hinits hb
    exact ⟨ops, hops⟩
  · obtain ⟨ops, -, hops⟩ := exists_right_of_forall₂ hmoves hb
    exact ((h.placed hb).laid.advance_eq_ok hops).1
  · refine flatMap_flatten_of_forall₂ hinits fun b hb ops hops => ?_
    exact LineBuffer.taken_init (h.placed hb).laid (h.placed hb).fits hops
  · rw [htrips]
    refine flatMap_flatten_of_forall₂ hmoves fun b hb ops hops => ?_
    exact LineBuffer.taken_advance (h.placed hb).laid hops i
  · rw [htrips]
    exact flatMap_flatten_of_forall₂ hdrained fun b hb ops hops => taken_drains hops

theorem CodeOf.stored_eq {code : StageCode}
    (hcode : CodeOf target s m plan range stage code) :
    stage.stored stage.output = List.range'
      (stageOutput s range (s.gridCols / target.lanes)).2 stage.tripCount := by
  have htarget : code.target = stage.output := by
    rw [hcode.output, ← hcode.stores]
  unfold Stage.stored
  rw [hcode.events, code.stored_executed, hcode.trips, entriesOf_self, List.map_map, ← hcode.stores,
    List.range'_eq_map_range]
  · rfl
  · intro x hx
    obtain ⟨i, -, rfl⟩ := List.mem_map.1 hx
    exact htarget

theorem Built.stage_at (h : Built target s m plan design) (hkernel : kernel ∈ design.kernels)
    (hget : kernel.stages[n]? = some stage) : n < plan.stageCount ∧
      Generate.stage target s plan kernel.point m (forward? target s) (rangeOf plan n) =
        .ok stage := by
  obtain ⟨⟨-, -, hstages⟩, -⟩ := plan_of_create h.plan_eq
  have hrel := h.stages kernel hkernel
  rw [hstages, List.forall₂_map_left_iff] at hrel
  obtain ⟨hlt, rfl⟩ := List.getElem?_eq_some_iff.1 hget
  have hn : n < plan.stageCount := by
    have hlen := hrel.length_eq
    rw [List.length_range] at hlen
    omega
  have hone := hrel.get (by rwa [List.length_range]) hlt
  rw [List.get_eq_getElem, List.get_eq_getElem, List.getElem_range] at hone
  exact ⟨hn, hone⟩

end Generate

end GridSweep
