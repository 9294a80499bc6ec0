import GridSweep.Kernel.Generate
import GridSweep.Proofs.LineBuffer.LaneReads
import GridSweep.Proofs.LineBuffer.QueueSafety
import GridSweep.Proofs.LineBuffer.Taken

/-!
# Line buffers side by side

A stage has a line buffer for every input, each with a feed of its own. Their elements have
different names and their feeds different sources, so that what happens to one buffer leaves the
others alone. `Outcome.chain` turns a fact about one buffer into one about all of them, and the
filling, the steps and the draining of a stage are three instances of it.
-/

namespace GridSweep

/-- A line buffer with its feed: the words that the feed gives, and how many of them a channel
holds. -/
structure Fed (w : Nat) where
  buffer : LineBuffer
  feed : Feed
  word : Nat → BitVec w
  avail : Nat

namespace Fed

variable {w : Nat}

/-- The names of the elements. -/
def names (x : Fed w) : List String := namesOf x.buffer.storage

/-- What a stage with `u` lanes relies on. -/
structure Valid (u : Nat) (x : Fed w) : Prop where
  laid : x.buffer.Laid
  fits : x.buffer.RowsFit
  narrow : x.buffer.Narrow
  reaches : x.buffer.Reaches u
  top_nonneg : 0 ≤ Word64.signed x.feed.centerRow + x.buffer.topRow
  first_le : x.buffer.firstWord x.feed ≤ x.feed.words
  avail_eq : x.feed.endpoint.isStream → x.avail = x.feed.words

/-- The feed is at its first word. -/
def Serves (x : Fed w) (p : Supply w) : Prop := p.Serves x.feed.endpoint x.word x.avail 0

def Running (x : Fed w) (trips n : Nat) (m : Machine w) : Prop :=
  x.buffer.Running x.feed trips x.word x.avail n m

/-- Nothing is left of the feed, if it is a channel. -/
def Spent (x : Fed w) (m : Machine w) : Prop :=
  ∀ name, x.feed.endpoint = .stream name → m.supply.channels name = []

/-- Different variables and different sources. -/
structure Apart (xs : List (Fed w)) : Prop where
  vars : (xs.map (·.buffer.var)).Nodup
  sources : (xs.map (·.feed.endpoint)).Nodup

end Fed

/-! ## Names of different buffers -/

namespace LineBuffer

variable {b b' : LineBuffer}

theorem Laid.exists_part (hl : b.Laid) {n : String} (hn : n ∈ namesOf b.storage) :
    ∃ p, n = b.partName p := by
  rw [storage, namesOf_append, hl.flow_eq, hl.popped_eq, namesOf_flowOf, namesOf_buildPopped] at hn
  rcases List.mem_append.1 hn with h | h
  · obtain ⟨p, -, rfl⟩ := List.mem_map.1 h
    exact ⟨p, rfl⟩
  · obtain ⟨p, -, rfl⟩ := List.mem_map.1 h
    exact ⟨p, rfl⟩

theorem Laid.storage_disjoint (hl : b.Laid) (hl' : b'.Laid) (hne : b.var ≠ b'.var) {n : String}
    (hn : n ∈ namesOf b.storage) : n ∉ namesOf b'.storage := by
  intro hn'
  obtain ⟨p, rfl⟩ := hl.exists_part hn
  obtain ⟨q, hq⟩ := hl'.exists_part hn'
  exact hne (partName_inj hq).1

end LineBuffer

/-- The elements of all buffers have different names. -/
theorem LineBuffer.nodup_storages {bs : List LineBuffer} (hvars : (bs.map (·.var)).Nodup)
    (hlaid : ∀ b ∈ bs, b.Laid) : (namesOf (bs.flatMap (·.storage))).Nodup := by
  induction bs with
  | nil => exact List.nodup_nil
  | cons b bs ih =>
    obtain ⟨hvar, hvars⟩ := List.nodup_cons.1 hvars
    have hlb := hlaid b List.mem_cons_self
    rw [List.flatMap_cons, namesOf_append]
    refine hlb.nodup_storage.append
      (ih hvars fun y hy => hlaid y (List.mem_cons_of_mem _ hy)) fun n hn hn' => ?_
    obtain ⟨e, he, rfl⟩ := List.mem_map.1 hn'
    obtain ⟨y, hy, he⟩ := List.mem_flatMap.1 he
    refine hlb.storage_disjoint (hlaid y (List.mem_cons_of_mem _ hy)) (fun heq => ?_) hn
      (name_mem_namesOf he)
    exact hvar (List.mem_map.2 ⟨y, hy, heq.symm⟩)

section Frames

variable {w : Nat} {names : List String} {sources : List Endpoint} {m m' : Machine w} {x : Fed w}
  {u trips n : Nat}

/-- A fact about a buffer that only its own elements and its own source can change. -/
def Framed (P : Fed w → Machine w → Prop) : Prop :=
  ∀ ⦃x : Fed w⦄ ⦃names : List String⦄ ⦃sources : List Endpoint⦄ ⦃m m' : Machine w⦄, x.buffer.Laid →
    m.Within names sources m' → (∀ n ∈ names, n ∉ x.names) → x.feed.endpoint ∉ sources →
    P x m → P x m'

theorem framed_running (trips n : Nat) : Framed (w := w) fun x m => x.Running trips n m := by
  intro x names sources m m' hl hw hnames hsrc h
  refine ⟨h.holds.of_within hw.store fun a ha hflow => ?_, fun r hr => ?_,
    hw.supply.serves hsrc h.serves⟩
  · refine hnames a ha ?_
    rw [Fed.names, LineBuffer.storage, LineBuffer.namesOf_append]
    exact List.mem_append_left _ hflow
  · rw [hw.store.regs_eq _ fun hin => ?_]
    · exact h.popped r hr
    · refine hnames _ hin ?_
      rw [Fed.names, LineBuffer.storage, LineBuffer.namesOf_append]
      exact List.mem_append_right _ (hl.poppedName_mem hr)

/-- What one operation does to one buffer, a list of them does to all buffers. -/
theorem Outcome.chain {β : Type} {run : Machine w → β → Except Fault (Machine w)}
    {R : Fed w → β → Prop} {P Q : Fed w → Machine w → Prop} (hP : Framed P) (hQ : Framed Q)
    {xs : List (Fed w)} {ops : List β} (hops : List.Forall₂ R xs ops)
    (hlaid : ∀ x ∈ xs, x.buffer.Laid) (hapart : Fed.Apart xs)
    (hrun : ∀ x ∈ xs, ∀ op m, R x op → P x m →
      Outcome False (fun m' => Q x m' ∧ m.Within x.names [x.feed.endpoint] m') (run m op)) :
    ∀ m, (∀ x ∈ xs, P x m) → Outcome False (fun m' => (∀ x ∈ xs, Q x m') ∧
      m.Within (xs.flatMap Fed.names) (xs.map (·.feed.endpoint)) m') (ops.foldlM run m) := by
  induction hops with
  | nil => exact fun m _ => ⟨by simp, .refl ..⟩
  | @cons x op xs ops hop _ ih =>
    intro m hm
    obtain ⟨hvar, hvars⟩ := List.nodup_cons.1 hapart.vars
    obtain ⟨hsrc, hsources⟩ := List.nodup_cons.1 hapart.sources
    have hlx := hlaid x List.mem_cons_self
    have hne : ∀ y ∈ xs, x.buffer.var ≠ y.buffer.var := fun y hy h =>
      hvar (List.mem_map.2 ⟨y, hy, h.symm⟩)
    rw [List.foldlM_cons]
    have hhead := hrun x List.mem_cons_self op m hop (hm x List.mem_cons_self)
    refine hhead.bind fun m₁ hm₁ => ?_
    obtain ⟨hq, hw₁⟩ := hm₁
    have hrest : ∀ y ∈ xs, P y m₁ := by
      intro y hy
      have hly := hlaid y (List.mem_cons_of_mem _ hy)
      refine hP hly hw₁ (fun n hn => hlx.storage_disjoint hly (hne y hy) hn) ?_
        (hm y (List.mem_cons_of_mem _ hy))
      rw [List.mem_singleton]
      exact fun h => hsrc (List.mem_map.2 ⟨y, hy, h⟩)
    refine (ih (fun y hy => hlaid y (List.mem_cons_of_mem _ hy)) ⟨hvars, hsources⟩
      (fun y hy => hrun y (List.mem_cons_of_mem _ hy)) m₁ hrest).mono fun m₂ hm₂ => ?_
    obtain ⟨hqs, hw₂⟩ := hm₂
    refine ⟨fun y hy => ?_, ?_⟩
    · rcases List.mem_cons.1 hy with rfl | hy
      · refine hQ hlx hw₂ (fun n hn => ?_) hsrc hq
        obtain ⟨z, hz, hn⟩ := List.mem_flatMap.1 hn
        exact (hlaid z (List.mem_cons_of_mem _ hz)).storage_disjoint hlx (hne z hz).symm hn
      · exact hqs y hy
    · rw [List.flatMap_cons, List.map_cons]
      refine ((hw₁.mono (List.subset_append_left ..)).mono_sources ?_).trans
        ((hw₂.mono (List.subset_append_right ..)).mono_sources (List.subset_cons_self ..))
      simp

end Frames

/-! ## Filling, stepping and draining all buffers -/

section All

variable {w : Nat} {u trips : Nat} {xs : List (Fed w)}

theorem foldlM_flatten {α β ε : Type} (f : β → α → Except ε β) (ls : List (List α)) :
    ∀ b, ls.flatten.foldlM f b = ls.foldlM (fun b l => l.foldlM f b) b := by
  induction ls with
  | nil => intro b; rfl
  | cons l ls ih =>
    intro b
    rw [List.flatten_cons, List.foldlM_append, List.foldlM_cons]
    exact congrArg _ (funext ih)

theorem Fed.Valid.enough {x : Fed w} (hv : x.Valid u) (trips : Nat) :
    Supply.Enough False x.feed.endpoint x.avail
      (x.buffer.firstWord x.feed + x.buffer.validSteps x.feed trips) := by
  refine .inr fun hstream => ?_
  have hfirst := hv.first_le
  rw [hv.avail_eq hstream, LineBuffer.validSteps]
  omega

theorem step_all (hvalid : ∀ x ∈ xs, x.Valid u) (hapart : Fed.Apart xs)
    {moves : List (List AdvanceOp)}
    (hmoves : List.Forall₂ (fun x ops => x.buffer.advance x.feed trips = .ok ops) xs moves)
    {n : Nat} (m : Machine w) (hrun : ∀ x ∈ xs, x.Running trips n m) :
    Outcome False (fun m' => (∀ x ∈ xs, x.Running trips (n + 1) m') ∧
      m.Within (xs.flatMap Fed.names) (xs.map (·.feed.endpoint)) m')
      (m.step moves.flatten n) := by
  rw [Machine.step, foldlM_flatten]
  refine Outcome.chain (framed_running trips n) (framed_running trips (n + 1)) hmoves
    (fun x hx => (hvalid x hx).laid) hapart (fun x hx ops m hops h => ?_) m hrun
  have hv := hvalid x hx
  exact LineBuffer.Running.step hv.laid hv.fits hv.narrow hv.top_nonneg h (hv.enough trips) hops

/-- What a feed has left at the end of a loop. -/
theorem Generate.drains_eq_ok {b : LineBuffer} {f : Feed} {repeated : Bool} {trips : Nat}
    {ops : List DrainOp} (h : Generate.drains repeated trips b f = .ok ops) :
    ops = (if repeated then b.drain else []) ++
      if f.endpoint.isStream ∧ 0 < f.words - (b.firstWord f + b.validSteps f trips) then
        [.surplus f.endpoint (f.words - (b.firstWord f + b.validSteps f trips))] else [] := by
  unfold Generate.drains at h
  dsimp only at h
  split at h
  · next hstream =>
    obtain ⟨words, hwords, h⟩ := bind_eq_ok.1 h
    obtain rfl := LineBuffer.consumed_eq_ok hwords
    rw [← Except.ok.inj h]
    simp only [hstream, true_and]
    split <;> simp
  · next hmemory =>
    rw [← Except.ok.inj h]
    simp [hmemory]

/-- A buffer is drained after the last step, and its feed is used up. -/
theorem Fed.Valid.drain {x : Fed w} (hv : x.Valid u) {repeated : Bool} {ops : List DrainOp}
    (hops : Generate.drains repeated trips x.buffer x.feed = .ok ops) {m : Machine w}
    (h : x.Running trips trips m) :
    Outcome False (fun m' => x.Spent m' ∧ m.Within x.names [x.feed.endpoint] m') (m.drain ops) := by
  obtain rfl := Generate.drains_eq_ok hops
  have hsplit : ∀ (m : Machine w) (l l' : List DrainOp),
      m.drain (l ++ l') = m.drain l >>= fun m => m.drain l' := fun m l l' => List.foldlM_append
  rw [hsplit]
  have hqueues : Outcome False (fun m' => m'.supply = m.supply ∧ m.Within x.names [] m')
      (m.drain (if repeated then x.buffer.drain else [])) := by
    cases repeated with
    | false => exact ⟨rfl, .refl ..⟩
    | true =>
      obtain ⟨s, hs, -, hw⟩ := h.holds.drain hv.laid
      rw [if_pos rfl, hs]
      refine ⟨rfl, hw.mono ?_, .refl .., rfl, rfl⟩
      rw [Fed.names, LineBuffer.storage, LineBuffer.namesOf_append]
      exact List.subset_append_left ..
  refine hqueues.bind fun m₁ hm₁ => ?_
  obtain ⟨hsupply, hw₁⟩ := hm₁
  have hserves := h.serves
  rw [Nat.min_eq_right (show x.buffer.validSteps x.feed trips ≤ trips from Nat.min_le_left ..),
    ← hsupply] at hserves
  have hfirst := hv.first_le
  -- the words from the last fetch to the end of the feed
  generalize hleft : x.buffer.firstWord x.feed + x.buffer.validSteps x.feed trips = used
    at hserves ⊢
  have hused : used ≤ x.feed.words := by
    rw [← hleft, LineBuffer.validSteps]
    omega
  have hw₁' := hw₁.mono_sources (List.nil_subset [x.feed.endpoint])
  split
  · next hstream =>
    rw [← hv.avail_eq hstream.1] at hused ⊢
    have henough : Supply.Enough False x.feed.endpoint x.avail (used + (x.avail - used)) :=
      .inr fun _ => by omega
    have hd := Supply.discard_serves hserves henough
    simp only [Machine.drain, List.foldlM_cons, List.foldlM_nil, bind_pure, DrainOp.exec]
    refine hd.bind fun p hp => ⟨fun name hname => ?_, hw₁'.trans ⟨.refl .., hp.2, rfl, rfl⟩⟩
    have hserves' := hp.1
    rw [hname, show used + (x.avail - used) = x.avail by omega] at hserves'
    exact hserves'.eq_nil
  · next hnone =>
    refine ⟨fun name hname => ?_, hw₁'⟩
    have hstream : x.feed.endpoint.isStream = true := by
      rw [hname]
      rfl
    have havail := hv.avail_eq hstream
    rw [hname, show used = x.avail by
      simp only [hstream, true_and, Nat.not_lt, Nat.le_zero] at hnone
      omega] at hserves
    exact hserves.eq_nil

end All

end GridSweep
