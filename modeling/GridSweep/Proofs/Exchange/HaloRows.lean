import GridSweep.Proofs.Exchange.Completion
import GridSweep.Proofs.Outcome

/-!
# The exchange of halo rows

The protocols of all partitions, one item after the other. A row has `grain` items. They fit
together and come in the right order, so every interleaving comes to an end, and then the top halo
of a partition has the last owned rows of the one above it, the bottom halo the first owned rows of
the one below it, and all other rows are as before.
-/

namespace GridSweep

/-- The operations of a step. -/
def ExchangeStep.ops (grain : Nat) (s : ExchangeStep) : List Exchange.Op :=
  (List.range' (s.firstRow * grain) (s.rows * grain)).map fun a => ⟨s.neighbor, s.transfer, a⟩

namespace Exchange

variable {plan : Plan} {n p grain : Nat} {transfer : Transfer} {nb : Neighbor}

/-- The operations of every partition of a chain, word by word. -/
def programs (protocols : List (Option ExchangeProtocol)) (p : Nat) : List Op :=
  match protocols[p]? with
  | some (some protocol) => protocol.steps.flatMap (·.ops protocol.wordsPerRow)
  | _ => []

/-- The steps of partition `p` in a chain of `n`, by its neighbours. -/
def stepsAt (plan : Plan) (n p : Nat) : List ExchangeStep :=
  (if 0 < p then ExchangeProtocol.withAbove plan else []) ++
    if p + 1 < n then ExchangeProtocol.withBelow plan else []

/-- The halo of a partition that has neighbours is not larger than what it owns. -/
def HalosFit (plan : Plan) (n : Nat) : Prop :=
  1 < n → plan.topRows ≤ plan.partRows ∧ plan.bottomRows ≤ plan.partRows

/-- The operations of partition `p` in a chain of `n`. -/
def chainProgram (plan : Plan) (grain n p : Nat) : List Op :=
  if p < n then (stepsAt plan n p).flatMap (·.ops grain) else []

/-! ## Roles by place -/

theorem getElem?_assign {sweeps : Nat} (hn : ¬ (n ≤ 1 ∨ sweeps ≤ 1)) (hp : p < n) :
    (Role.assign n sweeps)[p]? =
      some (if p = 0 then .up else if p + 1 = n then .down else .mid) := by
  unfold Role.assign
  rw [if_neg hn]
  cases p with
  | zero => rfl
  | succ i =>
    rw [List.getElem?_cons_succ, if_neg (by omega)]
    by_cases hlast : i + 2 = n
    · rw [if_pos hlast, List.getElem?_append_right (by rw [List.length_replicate]; omega),
        List.length_replicate, show i - (n - 2) = 0 by omega]
      rfl
    · rw [if_neg hlast, List.getElem?_append_left (by rw [List.length_replicate]; omega),
        List.getElem?_replicate, if_pos (by omega)]

theorem stepsOf_role (hn : ¬ n ≤ 1) (hp : p < n) :
    ExchangeProtocol.stepsOf (if p = 0 then .up else if p + 1 = n then .down else .mid) plan =
      stepsAt plan n p := by
  unfold stepsAt
  by_cases h0 : p = 0
  · rw [if_pos h0, if_neg (by omega), if_pos (by omega), List.nil_append]
    rfl
  · rw [if_neg h0, if_pos (show 0 < p by omega)]
    by_cases hlast : p + 1 = n
    · rw [if_pos hlast, if_neg (by omega), List.append_nil]
      rfl
    · rw [if_neg hlast, if_pos (show p + 1 < n by omega)]
      rfl

/-- Steps without rows have no operations. -/
theorem flatMap_ops_filter (steps : List ExchangeStep) :
    (steps.filter (0 < ·.rows)).flatMap (·.ops grain) = steps.flatMap (·.ops grain) := by
  induction steps with
  | nil => rfl
  | cons s steps ih =>
    by_cases hs : 0 < s.rows
    · rw [List.filter_cons_of_pos (by simpa using hs), List.flatMap_cons, List.flatMap_cons, ih]
    · rw [List.filter_cons_of_neg (by simpa using hs), List.flatMap_cons, ih]
      have : s.rows = 0 := by omega
      simp [ExchangeStep.ops, this]

theorem programs_assign_uni {sweeps wordsPerRow : Nat} {protocols : List (Option ExchangeProtocol)}
    (hn : n ≤ 1 ∨ sweeps ≤ 1)
    (h : (Role.assign n sweeps).mapM (ExchangeProtocol.forRole · plan wordsPerRow) = .ok protocols)
    (p : Nat) : programs protocols p = [] := by
  have hrel := mapM_eq_ok_iff.1 h
  unfold programs
  split
  · next protocol hget =>
    obtain ⟨role, hrole, hone⟩ := exists_left_of_forall₂ hrel (List.mem_of_getElem? hget)
    unfold Role.assign at hrole
    rw [if_pos hn] at hrole
    rw [List.eq_of_mem_replicate hrole] at hone
    cases hone
  · rfl

/-- The protocol at each place of a chain with something to exchange. -/
theorem getElem?_protocols {sweeps wordsPerRow : Nat} {protocols : List (Option ExchangeProtocol)}
    (hn : ¬ (n ≤ 1 ∨ sweeps ≤ 1))
    (h : (Role.assign n sweeps).mapM (ExchangeProtocol.forRole · plan wordsPerRow) = .ok protocols)
    (hp : p < n) :
    plan.topRows ≤ plan.partRows ∧ plan.bottomRows ≤ plan.partRows ∧
      ∃ role, protocols[p]? =
        some (some ⟨role, wordsPerRow, (stepsAt plan n p).filter (0 < ·.rows)⟩) := by
  have hrel := mapM_eq_ok_iff.1 h
  obtain ⟨hlt, hrole⟩ := List.getElem?_eq_some_iff.1 (getElem?_assign hn hp)
  have hp' : p < protocols.length := hrel.length_eq ▸ hlt
  have hone := hrel.get hlt hp'
  rw [List.get_eq_getElem, List.get_eq_getElem, hrole] at hone
  unfold ExchangeProtocol.forRole at hone
  rw [if_neg (by split <;> [skip; split] <;> simp)] at hone
  split at hone
  · cases hone
  next hrows =>
  rw [stepsOf_role (by omega) hp] at hone
  rw [List.getElem?_eq_getElem hp', ← Except.ok.inj hone]
  exact ⟨by omega, by omega, _, rfl⟩

/-- The programs of the protocols of a schedule with an exchange. -/
theorem programs_eq {sweeps wordsPerRow : Nat} {protocols : List (Option ExchangeProtocol)}
    (hn : 0 < n) (hsweeps : 1 < sweeps)
    (h : (Role.assign n sweeps).mapM (ExchangeProtocol.forRole · plan wordsPerRow) =
      .ok protocols) :
    HalosFit plan n ∧ programs protocols = chainProgram plan wordsPerRow n := by
  by_cases hone : n = 1
  · subst hone
    refine ⟨fun hlt => absurd hlt (by omega), funext fun p => ?_⟩
    rw [programs_assign_uni (.inl (Nat.le_refl 1)) h]
    unfold chainProgram stepsAt
    split
    · rw [if_neg (by omega), if_neg (by omega)]
      rfl
    · rfl
  · have hn' : ¬ (n ≤ 1 ∨ sweeps ≤ 1) := by omega
    obtain ⟨htop, hbottom, -⟩ := getElem?_protocols hn' h hn
    refine ⟨fun _ => ⟨htop, hbottom⟩, funext fun p => ?_⟩
    unfold programs chainProgram
    by_cases hp : p < n
    · obtain ⟨-, -, role, hget⟩ := getElem?_protocols hn' h hp
      rw [hget, if_pos hp]
      exact flatMap_ops_filter _
    · have hlen : protocols.length = n := by
        rw [← (mapM_eq_ok_iff.1 h).length_eq, Role.length_assign]
        omega
      rw [List.getElem?_eq_none (by omega), if_neg hp]

/-! ## The programs fit together -/

theorem places_ops (s : ExchangeStep) : places (s.ops grain) transfer nb =
    if s.transfer = transfer ∧ s.neighbor = nb then
      List.range' (s.firstRow * grain) (s.rows * grain)
    else [] := by
  unfold places ExchangeStep.ops
  split
  · next hs => simp [List.filter_map, Function.comp_def, hs]
  · next hs => simp [List.filter_map, Function.comp_def, hs]

theorem places_flatMap (steps : List ExchangeStep) :
    places (steps.flatMap (·.ops grain)) transfer nb = steps.flatMap fun s =>
      if s.transfer = transfer ∧ s.neighbor = nb then
        List.range' (s.firstRow * grain) (s.rows * grain) else [] := by
  induction steps with
  | nil => rfl
  | cons s steps ih => rw [List.flatMap_cons, places_append, places_ops, ih, List.flatMap_cons]

/-- Where the rows of a program come from and go to. -/
theorem places_chainProgram (plan : Plan) (grain : Nat) (hp : p < n) :
    places (chainProgram plan grain n p) .receive .above =
        (if 0 < p then List.range' 0 (plan.topRows * grain) else []) ∧
      places (chainProgram plan grain n p) .send .above =
        (if 0 < p then List.range' (plan.topRows * grain) (plan.bottomRows * grain) else []) ∧
      places (chainProgram plan grain n p) .send .below =
        (if p + 1 < n then List.range' (plan.partRows * grain) (plan.topRows * grain) else []) ∧
      places (chainProgram plan grain n p) .receive .below =
        (if p + 1 < n then List.range' ((plan.topRows + plan.partRows) * grain)
          (plan.bottomRows * grain) else []) := by
  unfold chainProgram
  rw [if_pos hp]
  simp only [places_flatMap, stepsAt]
  by_cases h0 : 0 < p <;> by_cases h1 : p + 1 < n <;>
    simp [h0, h1, ExchangeProtocol.withAbove, ExchangeProtocol.withBelow]

theorem mem_withAbove_append_withBelow {s : ExchangeStep}
    (h : s ∈ ExchangeProtocol.withAbove plan ++ ExchangeProtocol.withBelow plan) :
    s = ⟨.above, .receive, 0, plan.topRows⟩ ∨ s = ⟨.above, .send, plan.topRows, plan.bottomRows⟩ ∨
      s = ⟨.below, .send, plan.partRows, plan.topRows⟩ ∨
      s = ⟨.below, .receive, plan.topRows + plan.partRows, plan.bottomRows⟩ := by
  simpa [ExchangeProtocol.withAbove, ExchangeProtocol.withBelow] using h

theorem mem_stepsAt {s : ExchangeStep} (h : s ∈ stepsAt plan n p) :
    s ∈ ExchangeProtocol.withAbove plan ++ ExchangeProtocol.withBelow plan := by
  unfold stepsAt at h
  rcases List.mem_append.1 h with h | h <;> split at h
  · exact List.mem_append_left _ h
  · cases h
  · exact List.mem_append_right _ h
  · cases h

/-- The steps of a partition are with neighbours that it has. -/
theorem exists_peer_of_mem_stepsAt {s : ExchangeStep} (h : s ∈ stepsAt plan n p) :
    ∃ q, peer? n p s.neighbor = some q := by
  rcases List.mem_append.1 h with h | h <;> split at h
  · next h0 =>
    simp only [ExchangeProtocol.withAbove, List.mem_cons, List.not_mem_nil, or_false] at h
    rcases h with rfl | rfl <;> exact ⟨p - 1, if_pos h0⟩
  · cases h
  · next h1 =>
    simp only [ExchangeProtocol.withBelow, List.mem_cons, List.not_mem_nil, or_false] at h
    rcases h with rfl | rfl <;> exact ⟨p + 1, if_pos h1⟩
  · cases h

theorem mem_chainProgram {o : Op} :
    o ∈ chainProgram plan grain n p ↔ p < n ∧ ∃ s ∈ stepsAt plan n p, o.neighbor = s.neighbor ∧
      o.transfer = s.transfer ∧ s.firstRow * grain ≤ o.place ∧
        o.place < (s.firstRow + s.rows) * grain := by
  unfold chainProgram
  by_cases hp : p < n
  · rw [if_pos hp, List.mem_flatMap]
    simp only [hp, true_and]
    refine exists_congr fun s => and_congr_right fun _ => ?_
    unfold ExchangeStep.ops
    rw [List.mem_map, Nat.add_mul]
    constructor
    · rintro ⟨a, ha, rfl⟩
      have := List.mem_range'_1.1 ha
      exact ⟨rfl, rfl, this⟩
    · rintro ⟨hnb, htransfer, hplace⟩
      exact ⟨o.place, List.mem_range'_1.2 hplace, by rw [← hnb, ← htransfer]⟩
  · rw [if_neg hp]
    simp [hp]

theorem one_lt_of_mem {o : Op} (ho : o ∈ chainProgram plan grain n p) : 1 < n := by
  obtain ⟨hp, s, hs, -⟩ := mem_chainProgram.1 ho
  unfold stepsAt at hs
  by_contra hle
  rw [if_neg (by omega), if_neg (by omega)] at hs
  cases hs

/-- What is sent comes from rows that a partition owns. -/
theorem sends_from_owned {o : Op} (htop : plan.topRows ≤ plan.partRows)
    (hbottom : plan.bottomRows ≤ plan.partRows) (ho : o ∈ chainProgram plan grain n p)
    (hs : o.transfer = .send) : plan.topRows * grain ≤ o.place ∧
      o.place < (plan.topRows + plan.partRows) * grain := by
  obtain ⟨-, s, hmem, -, htransfer, hlow, hhigh⟩ := mem_chainProgram.1 ho
  rw [hs] at htransfer
  have hfirst : plan.topRows ≤ s.firstRow ∧ s.firstRow + s.rows ≤ plan.topRows + plan.partRows := by
    rcases mem_withAbove_append_withBelow (mem_stepsAt hmem) with rfl | rfl | rfl | rfl <;>
      simp at htransfer ⊢ <;> omega
  exact ⟨(Nat.mul_le_mul_right _ hfirst.1).trans hlow,
    hhigh.trans_le (Nat.mul_le_mul_right _ hfirst.2)⟩

/-- What is received goes to the other rows. -/
theorem receives_into_halo {o : Op} (ho : o ∈ chainProgram plan grain n p)
    (hr : o.transfer = .receive) : o.place < plan.topRows * grain ∨
      (plan.topRows + plan.partRows) * grain ≤ o.place := by
  obtain ⟨-, s, hmem, -, htransfer, hlow, hhigh⟩ := mem_chainProgram.1 ho
  rw [hr] at htransfer
  rcases mem_withAbove_append_withBelow (mem_stepsAt hmem) with rfl | rfl | rfl | rfl <;>
    simp at htransfer hlow hhigh ⊢ <;> omega

theorem sound_chainProgram (hhalos : HalosFit plan n) : Sound n (chainProgram plan grain n) := by
  refine ⟨fun p hp => if_neg (by omega), fun p o ho => ?_, fun p => ?_,
    fun p o ho o' ho' hs hr => ?_⟩
  · obtain ⟨-, s, hs, hnb, -⟩ := mem_chainProgram.1 ho
    rw [hnb]
    exact exists_peer_of_mem_stepsAt hs
  · by_cases hp : p < n
    · obtain ⟨habove, -, -, hbelow⟩ := places_chainProgram plan grain hp
      rw [habove, hbelow, Nat.add_mul]
      refine List.nodup_append.2 ⟨?_, ?_, fun a ha b hb => ?_⟩
      · split <;> simp [List.nodup_range']
      · split <;> simp [List.nodup_range']
      · split at ha <;> [skip; cases ha]
        split at hb <;> [skip; cases hb]
        have ha := List.mem_range'_1.1 ha
        have hb := List.mem_range'_1.1 hb
        omega
    · have hnil : chainProgram plan grain n p = [] := if_neg hp
      rw [hnil]
      exact List.nodup_nil
  · obtain ⟨htop, hbottom⟩ := hhalos (one_lt_of_mem ho)
    have hlow := sends_from_owned htop hbottom ho hs
    have hhigh := receives_into_halo ho' hr
    rw [Nat.add_mul] at hlow hhigh
    omega

theorem rank_of_mem_ops {s : ExchangeStep} {o : Op} (h : o ∈ s.ops grain) :
    o.rank = Op.rank ⟨s.neighbor, s.transfer, 0⟩ := by
  obtain ⟨a, -, rfl⟩ := List.mem_map.1 h
  rfl

theorem orderly_chainProgram (hhalos : HalosFit plan n) :
    Orderly n (chainProgram plan grain n) := by
  refine ⟨sound_chainProgram hhalos, fun p q nb hp hq => ?_, fun p => ?_⟩
  · obtain ⟨hq', -⟩ := peer?_symm hp hq
    obtain ⟨hra, -, -, hrb⟩ := places_chainProgram plan grain hp
    obtain ⟨-, hsa, hsb, -⟩ := places_chainProgram plan grain hq'
    cases nb with
    | above =>
      simp only [peer?, Option.ite_none_right_eq_some, Option.some.injEq] at hq
      rw [hra, Neighbor.opposite, hsb, if_pos hq.1, if_pos (by omega), List.length_range',
        List.length_range']
    | below =>
      simp only [peer?, Option.ite_none_right_eq_some, Option.some.injEq] at hq
      rw [hrb, Neighbor.opposite, hsa, if_pos hq.1, if_pos (by omega), List.length_range',
        List.length_range']
  · unfold chainProgram
    split <;> [skip; exact List.Pairwise.nil]
    refine List.pairwise_flatMap.2 ⟨fun s _ => ?_, ?_⟩
    · refine List.pairwise_of_forall_mem_list fun o ho o' ho' => ?_
      rw [rank_of_mem_ops ho, rank_of_mem_ops ho']
    · have hsteps : (stepsAt plan n p).Pairwise fun s s' =>
          Op.rank ⟨s.neighbor, s.transfer, 0⟩ ≤ Op.rank ⟨s'.neighbor, s'.transfer, 0⟩ := by
        unfold stepsAt
        split <;> split <;>
          simp [ExchangeProtocol.withAbove, ExchangeProtocol.withBelow, Op.rank]
      refine hsteps.imp fun hrank o ho o' ho' => ?_
      rw [rank_of_mem_ops ho, rank_of_mem_ops ho']
      exact hrank

/-! ## What an exchange does -/

section Refreshing

variable {α : Type} {capacity : Nat} {orig buffer : Nat → Nat → α} {t : Transit α}

/-- The halo of every partition is what its neighbours own, and all else is as before. -/
structure Refreshed (plan : Plan) (grain n : Nat) (orig buffer : Nat → Nat → α) : Prop where
  above : ∀ p i, 0 < p → p < n → i < plan.topRows * grain →
    buffer p i = orig (p - 1) (plan.partRows * grain + i)
  below : ∀ p i, p + 1 < n → i < plan.bottomRows * grain →
    buffer p ((plan.topRows + plan.partRows) * grain + i) = orig (p + 1) (plan.topRows * grain + i)
  kept : ∀ p a, (0 < p → plan.topRows * grain ≤ a) →
    (p + 1 < n → a < (plan.topRows + plan.partRows) * grain) → buffer p a = orig p a

theorem map_range'_inj {f g : Nat → α} {i j len : Nat}
    (h : (List.range' i len).map f = (List.range' j len).map g) (k : Nat) (hk : k < len) :
    f (i + k) = g (j + k) := by
  have hget := congrArg (·[k]?) h
  simpa [List.getElem?_range', hk] using hget

/-- However the partitions take turns, an exchange that is over has refreshed every halo. -/
theorem refreshed_of_moves (hhalos : HalosFit plan n)
    (h : Transit.Moves n capacity (.start (chainProgram plan grain n) orig) t)
    (hend : ∀ p, t.todo p = []) : Refreshed plan grain n orig t.buffer := by
  have ho : Orderly n (chainProgram plan grain n) := orderly_chainProgram hhalos
  obtain ⟨done, hinv⟩ := Invariant.moves ho.toSound h (invariant_start ..)
  obtain ⟨harrived, hkept⟩ := hinv.delivered ho hend
  refine ⟨fun p i h0 hp hi => ?_, fun p i h1 hi => ?_,
    fun p a hlow hhigh => hkept p a fun nb ha => ?_⟩
  · have hpeer : peer? n p .above = some (p - 1) := if_pos h0
    have hmap := (harrived p _ _ hp hpeer).2
    rw [(places_chainProgram _ _ hp).1, Neighbor.opposite,
      (places_chainProgram _ _ (by omega)).2.2.1, if_pos h0, if_pos (by omega)] at hmap
    simpa using map_range'_inj hmap i hi
  · have hpeer : peer? n p .below = some (p + 1) := if_pos h1
    have hmap := (harrived p _ _ (by omega) hpeer).2
    rw [(places_chainProgram _ _ (by omega)).2.2.2, Neighbor.opposite,
      (places_chainProgram _ _ h1).2.1, if_pos h1, if_pos (by omega)] at hmap
    exact map_range'_inj hmap i hi
  · obtain ⟨o, hmem, -⟩ := mem_places.1 ha
    have hp := (mem_chainProgram.1 hmem).1
    cases nb with
    | above =>
      rw [(places_chainProgram _ _ hp).1] at ha
      split at ha <;> [skip; cases ha]
      next h0 =>
      have := List.mem_range'_1.1 ha
      have := hlow h0
      omega
    | below =>
      rw [(places_chainProgram _ _ hp).2.2.2] at ha
      split at ha <;> [skip; cases ha]
      next h1 =>
      have := List.mem_range'_1.1 ha
      have := hhigh h1
      omega

/-- However the partitions have taken turns so far, some partition can go on. -/
theorem exists_move_of_moves (hhalos : HalosFit plan n) (hcap : 0 < capacity)
    (h : Transit.Moves n capacity (.start (chainProgram plan grain n) orig) t)
    (hleft : ∃ p, t.todo p ≠ []) : ∃ p u, t.move? n capacity p = some u := by
  have ho : Orderly n (chainProgram plan grain n) := orderly_chainProgram hhalos
  obtain ⟨done, hinv⟩ := Invariant.moves ho.toSound h (invariant_start ..)
  exact hinv.exists_move ho hcap hleft

/-- An exchange can be brought to its end. -/
theorem exists_moves (hhalos : HalosFit plan n) (hcap : 0 < capacity) (orig : Nat → Nat → α) :
    ∃ t, Transit.Moves n capacity (.start (chainProgram plan grain n) orig) t ∧
      ∀ p, t.todo p = [] :=
  (invariant_start ..).completes (orderly_chainProgram hhalos) hcap

end Refreshing

end Exchange

end GridSweep
