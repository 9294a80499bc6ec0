import GridSweep.Exchange.Progress
import GridSweep.Kernel.Generate
import GridSweep.Proofs.Exchange.Completion
import GridSweep.Proofs.Exchange.Confluence
import GridSweep.Proofs.Exchange.HaloRows
import Mathlib

/-!
# The verdict on an exchange

`checkProgress` lets the partitions take turns from top to bottom and counts words, without
carrying them. A round is still an interleaving: `Tracks` relates the counts to an exchange that
makes the same moves. A round that moves nothing shows that no partition can move, and as every
interleaving ends in the same standstill, the verdict on this one order holds for all orders.
-/

namespace GridSweep.Exchange

/-! ## Channels by place -/

/-- The inbox at the end of a channel. -/
def Link.inbox : Link → Nat × Neighbor
  | .down i => (i + 1, .above)
  | .up i => (i, .below)

/-- The upper partition of the two that a channel connects. -/
def Link.index : Link → Nat
  | .down i => i
  | .up i => i

theorem Link.inbox_inj {l l' : Link} (h : l.inbox = l'.inbox) : l = l' := by
  cases l <;> cases l' <;> simp_all [Link.inbox]

section Channels

variable {n p q : Nat} {nb : Neighbor}

/-- A partition uses the channel to or from its neighbour. -/
theorem link?_of_peer {o : Op} (hp : p < n) (hq : peer? n p o.neighbor = some q) :
    ∃ l, link? n p o.neighbor o.transfer = some l ∧ l.index + 1 < n ∧
      o.channel? n p = some l.inbox := by
  unfold Op.channel?
  rw [hq]
  cases hnb : o.neighbor <;> rw [hnb] at hq <;>
    simp only [peer?, Option.ite_none_right_eq_some, Option.some.injEq] at hq <;>
    obtain ⟨hside, rfl⟩ := hq <;> cases o.transfer
  · exact ⟨.up (p - 1), if_pos hside, by simp only [Link.index]; omega, rfl⟩
  · refine ⟨.down (p - 1), if_pos hside, by simp only [Link.index]; omega, ?_⟩
    simp only [Link.inbox]
    rw [Nat.sub_add_cancel hside]
  · exact ⟨.down p, if_pos hside, hside, rfl⟩
  · exact ⟨.up p, if_pos hside, hside, rfl⟩

/-- Counting the words of a channel is enough to see whether a move has to wait. -/
theorem moved?_length {α : Type} (o : Op) (capacity : Nat) (items : List α) (item : α) :
    (¬ o.Ready capacity items ∧ Chain.moved? capacity items.length o.transfer = none) ∨
      (o.Ready capacity items ∧
        Chain.moved? capacity items.length o.transfer = some (o.pass item items).length) := by
  unfold Op.Ready Op.pass Chain.moved?
  cases o.transfer with
  | send =>
    by_cases hroom : items.length < capacity
    · exact .inr ⟨hroom, by simp [hroom]⟩
    · exact .inl ⟨hroom, if_neg hroom⟩
  | receive =>
    cases items with
    | nil => exact .inl ⟨by simp, rfl⟩
    | cons v items => exact .inr ⟨by simp, by simp⟩

end Channels

namespace Transit

variable {α : Type} {n capacity : Nat} {t : Transit α}

/-- Operations that are left. -/
def left (n : Nat) (t : Transit α) : Nat := ∑ p ∈ Finset.range n, (t.todo p).length

end Transit

/-! ## A chain that counts -/

/-- What an operation does, wherever its item comes from. -/
def Op.kind (o : Op) : Neighbor × Transfer := (o.neighbor, o.transfer)

/-- A step word by word. -/
def Pending.kinds (s : Pending) : List (Neighbor × Transfer) :=
  List.replicate s.words (s.neighbor, s.transfer)

namespace Chain

theorem getD_setIfInBounds {β : Type} (xs : Array β) (d v : β) {p : Nat} (hp : p < xs.size)
    (q : Nat) : (xs.setIfInBounds p v).getD q d = if q = p then v else xs.getD q d := by
  simp only [Array.getD_eq_getD_getElem?, Array.getElem?_setIfInBounds]
  by_cases hq : q = p
  · subst hq
    simp [hp]
  · rw [if_neg (Ne.symm hq), if_neg hq]

theorem flatMap_dropDone (steps : List Pending) :
    (dropDone steps).flatMap Pending.kinds = steps.flatMap Pending.kinds := by
  induction steps with
  | nil => rfl
  | cons s steps ih =>
    unfold dropDone at ih ⊢
    by_cases hs : s.words = 0
    · rw [List.dropWhile_cons_of_pos (by simpa using hs), ih, List.flatMap_cons]
      simp [Pending.kinds, hs]
    · rw [List.dropWhile_cons_of_neg (by simpa using hs)]

theorem words_pos_of_dropDone {steps rest : List Pending} {s : Pending}
    (h : dropDone steps = s :: rest) : 0 < s.words := by
  have hhead := List.head_dropWhile_not (fun s : Pending => s.words == 0) (l := steps)
    (by unfold dropDone at h; simp [h])
  unfold dropDone at h
  simp only [h, List.head_cons, beq_eq_false_iff_ne] at hhead
  omega

theorem mem_of_mem_dropDone {steps : List Pending} {s : Pending} (h : s ∈ dropDone steps) :
    s ∈ steps := (List.dropWhile_sublist _).subset h

theorem remaining_eq_sum (c : Chain) :
    c.remaining = (c.todo.toList.map fun steps => (steps.map (·.words)).sum).sum := by
  have hsteps : ∀ (steps : List Pending) (words : Nat),
      steps.foldl (fun words s => words + s.words) words = words + (steps.map (·.words)).sum := by
    intro steps
    induction steps with
    | nil => simp
    | cons s steps ih =>
      intro words
      rw [List.foldl_cons, ih, List.map_cons, List.sum_cons, Nat.add_assoc]
  unfold remaining
  simp only [hsteps, ← Array.foldl_toList]
  rw [← List.foldl_map, ← List.sum_eq_foldl]

section Turns

variable {c : Chain} {p capacity : Nat} {roles : List Role} {s : Pending} {rest : List Pending}
  {l : Link}

theorem turn_done (h : dropDone (c.todo.getD p []) = []) :
    c.turn capacity roles p = .ok { c with todo := c.todo.setIfInBounds p [] } := by
  unfold turn
  rw [h]

theorem turn_wait (h : dropDone (c.todo.getD p []) = s :: rest)
    (hl : link? c.todo.size p s.neighbor s.transfer = some l)
    (hm : moved? capacity (c.load l) s.transfer = none) :
    c.turn capacity roles p = .ok { c with todo := c.todo.setIfInBounds p (s :: rest) } := by
  unfold turn
  simp only [h, hl, hm]

theorem turn_move {words : Nat} (h : dropDone (c.todo.getD p []) = s :: rest)
    (hl : link? c.todo.size p s.neighbor s.transfer = some l)
    (hm : moved? capacity (c.load l) s.transfer = some words) :
    c.turn capacity roles p = .ok { c.setLoad l words with
      todo := c.todo.setIfInBounds p ({ s with words := s.words - 1 } :: rest) } := by
  unfold turn
  simp only [h, hl, hm]

end Turns

end Chain

section Tracking

variable {α : Type} {n capacity p : Nat} {c d : Chain} {t u : Transit α} {roles : List Role}

/-- A chain counts what an exchange does. -/
structure Tracks (n : Nat) (c : Chain) (t : Transit α) : Prop where
  size : c.todo.size = n
  down_size : c.down.size = n - 1
  up_size : c.up.size = n - 1
  peers : ∀ p, ∀ s ∈ c.todo.getD p [], ∃ q, peer? n p s.neighbor = some q
  todo : ∀ p, (t.todo p).map Op.kind = (c.todo.getD p []).flatMap Pending.kinds
  load : ∀ l : Link, l.index + 1 < n → c.load l = (t.inbox l.inbox.1 l.inbox.2).length

namespace Tracks

theorem load_setLoad (h : Tracks n c t) {l : Link} (hl : l.index + 1 < n) (words : Nat)
    (l' : Link) : (c.setLoad l words).load l' = if l' = l then words else c.load l' := by
  have hdown := h.down_size
  have hup := h.up_size
  cases l with
  | down i =>
    simp only [Link.index] at hl
    cases l' with
    | down j =>
      refine (Chain.getD_setIfInBounds c.down 0 words (by omega) j).trans ?_
      simp only [Link.down.injEq]
      rfl
    | up j => rfl
  | up i =>
    simp only [Link.index] at hl
    cases l' with
    | down j => rfl
    | up j =>
      refine (Chain.getD_setIfInBounds c.up 0 words (by omega) j).trans ?_
      simp only [Link.up.injEq]
      rfl

/-- Partition `p` has other steps and operations, which go together. -/
theorem set_todo (h : Tracks n c t) (hp : p < n) {ops : List Op} {steps : List Pending}
    (hpeers : ∀ s ∈ steps, ∃ q, peer? n p s.neighbor = some q)
    (hops : ops.map Op.kind = steps.flatMap Pending.kinds) :
    Tracks n { c with todo := c.todo.setIfInBounds p steps }
      { t with todo := Function.update t.todo p ops } := by
  have hsize : p < c.todo.size := by rwa [h.size]
  refine ⟨by simpa using h.size, h.down_size, h.up_size, fun x => ?_, fun x => ?_, h.load⟩ <;>
    rw [Chain.getD_setIfInBounds _ _ _ hsize] <;> by_cases hx : x = p
  · subst hx
    rw [if_pos rfl]
    exact hpeers
  · rw [if_neg hx]
    exact h.peers x
  · subst hx
    simp only [if_pos, Function.update_self]
    exact hops
  · simp only [if_neg hx, Function.update_of_ne hx]
    exact h.todo x

/-- Steps that are done make no difference. -/
theorem set_todo_self (h : Tracks n c t) (hp : p < n) :
    Tracks n { c with todo := c.todo.setIfInBounds p (Chain.dropDone (c.todo.getD p [])) } t := by
  have hops := h.todo p
  rw [← Chain.flatMap_dropDone] at hops
  have hset := h.set_todo hp (fun s hs => h.peers p s (Chain.mem_of_mem_dropDone hs)) hops
  rwa [Function.update_eq_self] at hset

/-- The first operation of a partition is a word of its first step with words. -/
theorem next_op (h : Tracks n c t) {s : Pending} {rest : List Pending}
    (hsteps : Chain.dropDone (c.todo.getD p []) = s :: rest) :
    ∃ o ops, t.todo p = o :: ops ∧ o.neighbor = s.neighbor ∧ o.transfer = s.transfer ∧
      ops.map Op.kind = ({ s with words := s.words - 1 } :: rest).flatMap Pending.kinds := by
  obtain ⟨k, hk⟩ := Nat.exists_eq_add_one.2 (Chain.words_pos_of_dropDone hsteps)
  have htodo := h.todo p
  rw [← Chain.flatMap_dropDone, hsteps, List.flatMap_cons, Pending.kinds, hk, List.replicate_succ,
    List.cons_append, List.map_eq_cons_iff] at htodo
  obtain ⟨o, ops, hcons, hkind, hops⟩ := htodo
  obtain ⟨hnb, htransfer⟩ := Prod.mk.inj hkind
  refine ⟨o, ops, hcons, hnb, htransfer, ?_⟩
  rw [hops, hk]
  rfl

/-- A word that is moved is counted. -/
theorem moved (h : Tracks n c t) (hp : p < n) {o : Op} {ops : List Op} {l : Link}
    (hl : l.index + 1 < n) {steps : List Pending}
    (hpeers : ∀ s ∈ steps, ∃ q, peer? n p s.neighbor = some q)
    (hops : ops.map Op.kind = steps.flatMap Pending.kinds) :
    Tracks n { c.setLoad l (o.pass (t.buffer p o.place) (t.inbox l.inbox.1 l.inbox.2)).length with
      todo := c.todo.setIfInBounds p steps } (t.moved p o ops l.inbox) := by
  have hset := h.set_todo hp hpeers hops
  refine ⟨hset.size, ?_, ?_, hset.peers, hset.todo, fun l' hl' => ?_⟩
  · cases l <;> simpa [Chain.setLoad] using h.down_size
  · cases l <;> simpa [Chain.setLoad] using h.up_size
  · refine (h.load_setLoad hl _ l').trans ?_
    rw [Transit.moved_inbox]
    by_cases hsame : l' = l
    · subst hsame
      rw [if_pos rfl, if_pos rfl]
    · rw [if_neg hsame, if_neg fun heq => hsame (Link.inbox_inj heq), h.load l' hl']

/-- A turn makes the move of its partition, if that has one. -/
theorem turn (h : Tracks n c t) (capacity : Nat) (roles : List Role) (hp : p < n) :
    ∃ d, c.turn capacity roles p = .ok d ∧
      ((t.move? n capacity p = none ∧ Tracks n d t) ∨
        ∃ u, t.move? n capacity p = some u ∧ Tracks n d u) := by
  have hself := h.set_todo_self hp
  cases hsteps : Chain.dropDone (c.todo.getD p []) with
  | nil =>
    refine ⟨_, Chain.turn_done hsteps, .inl ⟨?_, hsteps ▸ hself⟩⟩
    have htodo := h.todo p
    rw [← Chain.flatMap_dropDone, hsteps, List.flatMap_nil, List.map_eq_nil_iff] at htodo
    unfold Transit.move?
    rw [htodo]
  | cons s rest =>
    obtain ⟨o, ops, hcons, hnb, htransfer, hops⟩ := h.next_op hsteps
    have hpeers : ∀ x ∈ s :: rest, ∃ q, peer? n p x.neighbor = some q := fun x hx =>
      h.peers p x (Chain.mem_of_mem_dropDone (hsteps ▸ hx))
    obtain ⟨q, hq⟩ := hpeers s List.mem_cons_self
    obtain ⟨l, hlink, hindex, hchannel⟩ := link?_of_peer hp (hnb ▸ hq)
    rw [hnb, htransfer, ← h.size] at hlink
    rcases moved?_length o capacity (t.inbox l.inbox.1 l.inbox.2) (t.buffer p o.place) with
      ⟨hwait, hcount⟩ | ⟨hready, hcount⟩ <;> rw [← h.load l hindex, htransfer] at hcount
    · refine ⟨_, Chain.turn_wait hsteps hlink hcount, .inl ⟨?_, hsteps ▸ hself⟩⟩
      apply Option.eq_none_iff_forall_ne_some.2
      intro u hu
      obtain ⟨o', ops', c', hcons', hchannel', hready, -⟩ := Transit.move?_eq_some_iff.1 hu
      cases hcons.symm.trans hcons'
      cases hchannel.symm.trans hchannel'
      exact hwait hready
    · refine ⟨_, Chain.turn_move hsteps hlink hcount, .inr ⟨t.moved p o ops l.inbox, ?_, ?_⟩⟩
      · exact Transit.move?_eq_some_iff.2 ⟨o, ops, l.inbox, hcons, hchannel, hready, rfl⟩
      · refine h.moved hp hindex (fun x hx => ?_) hops
        rcases List.mem_cons.1 hx with rfl | hx
        · exact ⟨q, hq⟩
        · exact hpeers x (List.mem_cons_of_mem _ hx)

/-- A round moves something, or shows that nothing can be moved. -/
theorem foldlM_turn (h : Tracks n c t) (capacity : Nat) (roles : List Role) (ps : List Nat)
    (hps : ∀ p ∈ ps, p < n) :
    ∃ d u, ps.foldlM (Chain.turn capacity roles) c = .ok d ∧ Tracks n d u ∧
      Transit.Moves n capacity t u ∧
      ((u = t ∧ ∀ p ∈ ps, t.move? n capacity p = none) ∨ u.left n < t.left n) := by
  induction ps generalizing c t with
  | nil => exact ⟨c, t, rfl, h, .refl t, .inl ⟨rfl, by simp⟩⟩
  | cons p ps ih =>
    have hps' : ∀ q ∈ ps, q < n := fun q hq => hps q (List.mem_cons_of_mem _ hq)
    obtain ⟨c', hturn, ⟨hnone, h'⟩ | ⟨t', hmove, h'⟩⟩ :=
      h.turn capacity roles (hps p List.mem_cons_self)
    · obtain ⟨d, u, hfold, hd, hmoves, hu⟩ := ih h' hps'
      refine ⟨d, u, by rw [List.foldlM_cons, hturn]; exact hfold, hd, hmoves, ?_⟩
      refine hu.imp_left fun ⟨heq, hall⟩ => ⟨heq, ?_⟩
      rintro q (_ | ⟨_, hq⟩)
      exacts [hnone, hall q hq]
    · obtain ⟨d, u, hfold, hd, hmoves, hu⟩ := ih h' hps'
      refine ⟨d, u, by rw [List.foldlM_cons, hturn]; exact hfold, hd, .step p hmove hmoves, .inr ?_⟩
      have hlt := Transit.sum_todo_lt (hps p List.mem_cons_self) hmove
      rcases hu with ⟨rfl, -⟩ | hu
      exacts [hlt, hu.trans hlt]

theorem inside (h : Tracks n c t) (p : Nat) (hp : n ≤ p) : t.todo p = [] := by
  have htodo := h.todo p
  rw [Array.getD_eq_getD_getElem?, Array.getElem?_eq_none (by rw [h.size]; exact hp)] at htodo
  exact List.map_eq_nil_iff.1 htodo

theorem remaining_eq (h : Tracks n c t) : c.remaining = t.left n := by
  have hlist : c.todo.toList = (List.range n).map fun p => c.todo.getD p [] := by
    refine List.ext_getElem (by simp [h.size]) fun p hp _ => ?_
    simp only [Array.length_toList] at hp
    simp [hp]
  have hlength : ∀ p, (t.todo p).length = ((c.todo.getD p []).map (·.words)).sum := by
    intro p
    rw [← List.length_map (f := Op.kind), h.todo p, List.length_flatMap]
    simp [Pending.kinds]
  rw [Chain.remaining_eq_sum, hlist, List.map_map]
  unfold Transit.left
  rw [Finset.sum_congr rfl fun p _ => hlength p]
  rfl

/-- No words are left exactly when all operations are done. -/
theorem remaining_eq_zero_iff (h : Tracks n c t) : c.remaining = 0 ↔ ∀ p, t.todo p = [] := by
  rw [h.remaining_eq, Transit.left, Finset.sum_eq_zero_iff]
  constructor
  · intro hzero p
    by_cases hp : p < n
    · exact List.length_eq_zero_iff.1 (hzero p (Finset.mem_range.2 hp))
    · exact h.inside p (by omega)
  · intro hdone p _
    rw [hdone p]
    rfl

/-- Rounds end with everything done, after at most as many rounds as there are words, or in a
standstill with something left. -/
theorem run (h : Tracks n c t) (capacity : Nat) (roles : List Role) (rounds : Nat) :
    (∃ r u, c.run capacity roles c.remaining rounds = .ok (rounds + r) ∧ r ≤ max 1 c.remaining ∧
        Transit.Moves n capacity t u ∧ ∀ p, u.todo p = []) ∨
      ∃ r stuck u, c.run capacity roles c.remaining rounds =
          .error (.emission (.deadlock r stuck)) ∧
        Transit.Moves n capacity t u ∧ u.Stuck n capacity ∧ ∃ p, u.todo p ≠ [] := by
  generalize hwords : c.remaining = words
  induction words using Nat.strong_induction_on generalizing c t rounds with
  | _ words ih =>
    obtain ⟨d, u, hround, hd, hmoves, hu⟩ :=
      h.foldlM_turn capacity roles (List.range n) fun p hp => List.mem_range.1 hp
    rw [← h.size] at hround
    rw [Chain.run, Chain.round, hround]
    dsimp only
    by_cases hzero : d.remaining = 0
    · rw [if_pos hzero]
      exact .inl ⟨1, u, rfl, Nat.le_max_left .., hmoves, hd.remaining_eq_zero_iff.1 hzero⟩
    · rw [if_neg hzero]
      by_cases hless : d.remaining < words
      · rw [if_pos hless]
        rcases ih _ hless hd (rounds + 1) rfl with
          ⟨r, v, hok, hr, hv, hend⟩ | ⟨r, stuck, v, herror, hv, hstuck, hsome⟩
        · exact .inl ⟨r + 1, v, by rw [hok, Nat.add_right_comm, Nat.add_assoc], by omega,
            hmoves.trans hv, hend⟩
        · exact .inr ⟨r, stuck, v, herror, hmoves.trans hv, hstuck, hsome⟩
      · rw [if_neg hless]
        rw [← hwords, h.remaining_eq, hd.remaining_eq] at hless
        obtain ⟨rfl, hnone⟩ := hu.resolve_right hless
        refine .inr ⟨_, _, u, rfl, hmoves, fun p => ?_, ?_⟩
        · by_cases hp : p < n
          · exact hnone p (List.mem_range.2 hp)
          · unfold Transit.move?
            rw [hd.inside p (by omega)]
        · exact not_forall.1 (mt hd.remaining_eq_zero_iff.2 hzero)

end Tracks

end Tracking

/-! ## The verdict -/

/-- Every step is with a neighbour that exists. -/
def Connected (protocols : List ExchangeProtocol) : Prop :=
  ∀ p protocol, protocols[p]? = some protocol → ∀ s ∈ protocol.steps,
    ∃ q, peer? protocols.length p s.neighbor = some q

/-- The words of all steps. -/
def totalWords (protocols : List ExchangeProtocol) : Nat :=
  (protocols.map fun p => (p.steps.map p.words).sum).sum

section Verdict

variable {α : Type} {protocols : List ExchangeProtocol}

theorem map_kind_ops (grain : Nat) (s : ExchangeStep) :
    (s.ops grain).map Op.kind = List.replicate (s.rows * grain) (s.neighbor, s.transfer) := by
  unfold ExchangeStep.ops
  rw [List.map_map]
  change List.map (fun _ => (s.neighbor, s.transfer)) _ = _
  rw [List.map_const', List.length_range']

theorem getD_start (p : Nat) : (Chain.start protocols).todo.getD p [] =
    match protocols[p]? with
    | some protocol =>
      protocol.steps.map fun s => ⟨s.neighbor, s.transfer, protocol.words s⟩
    | none => [] := by
  unfold Chain.start
  rw [Array.getD_eq_getD_getElem?, List.getElem?_toArray, List.getElem?_map]
  cases protocols[p]? <;> rfl

/-- Steps whose words can be counted in a word are not cut short. -/
theorem words_eq {protocol : ExchangeProtocol} {s : ExchangeStep}
    (h : s.rows * protocol.wordsPerRow < 2 ^ 64) :
    protocol.words s = s.rows * protocol.wordsPerRow := by
  unfold ExchangeProtocol.words
  rw [← Int.natCast_mul]
  exact Word64.unsigned_of_lt h

theorem tracks_start (h : Connected protocols) (hwords : ∀ protocol ∈ protocols,
      ∀ s ∈ protocol.steps, s.rows * protocol.wordsPerRow < 2 ^ 64) (buffer : Nat → Nat → α) :
    Tracks protocols.length (.start protocols)
      (.start (programs (protocols.map some)) buffer) := by
  refine ⟨by simp [Chain.start], by simp [Chain.start], by simp [Chain.start], fun p s hs => ?_,
    fun p => ?_, fun l _ => ?_⟩
  · rw [getD_start] at hs
    cases hp : protocols[p]? with
    | none =>
      rw [hp] at hs
      cases hs
    | some protocol =>
      rw [hp] at hs
      obtain ⟨step, hstep, rfl⟩ := List.mem_map.1 hs
      exact h p protocol hp step hstep
  · rw [getD_start]
    simp only [Transit.start, programs, List.getElem?_map]
    cases hp : protocols[p]? with
    | none => rfl
    | some protocol =>
      simp only [Option.map_some, List.map_flatMap, map_kind_ops, List.flatMap_map, Pending.kinds]
      refine List.flatMap_congr fun s hs => ?_
      rw [words_eq (hwords protocol (List.mem_of_getElem? hp) s hs)]
  · cases l <;> simp only [Chain.load, Chain.start, List.toArray_replicate,
      Array.getD_eq_getD_getElem?, Array.getElem?_replicate] <;> split <;> rfl

theorem remaining_start : (Chain.start protocols).remaining = totalWords protocols := by
  rw [Chain.remaining_eq_sum]
  unfold Chain.start totalWords
  simp only [List.map_map, Function.comp_def]

/-- The order of `checkProgress` is an interleaving that ends as it says. -/
theorem checkProgress_cases (hn : 2 ≤ protocols.length) (h : Connected protocols)
    (hwords : ∀ protocol ∈ protocols, ∀ s ∈ protocol.steps,
      s.rows * protocol.wordsPerRow < 2 ^ 64) (capacity : Nat) (buffer : Nat → Nat → α) :
    (∃ r t, checkProgress protocols capacity = .ok r ∧ r ≤ max 1 (totalWords protocols) ∧
        Transit.Moves protocols.length capacity (.start (programs (protocols.map some)) buffer) t ∧
        ∀ p, t.todo p = []) ∨
      ∃ r stuck t, checkProgress protocols capacity = .error (.emission (.deadlock r stuck)) ∧
        Transit.Moves protocols.length capacity (.start (programs (protocols.map some)) buffer) t ∧
        t.Stuck protocols.length capacity ∧ ∃ p, t.todo p ≠ [] := by
  have htracks := tracks_start h hwords buffer
  unfold checkProgress
  by_cases hempty : (Chain.start protocols).todo.toList.all (·.isEmpty)
  · rw [if_pos (.inr hempty)]
    refine .inl ⟨0, _, rfl, Nat.zero_le _, .refl _, fun p => ?_⟩
    have htodo := htracks.todo p
    have hnil : (Chain.start protocols).todo.getD p [] = [] := by
      rw [Array.getD_eq_getD_getElem?]
      cases hp : (Chain.start protocols).todo[p]? with
      | none => rfl
      | some steps =>
        have hmem : steps ∈ (Chain.start protocols).todo.toList :=
          Array.mem_toList_iff.2 (Array.mem_of_getElem? hp)
        exact List.isEmpty_iff.1 (List.all_eq_true.1 hempty steps hmem)
    rw [hnil] at htodo
    exact List.map_eq_nil_iff.1 htodo
  · rw [if_neg (not_or.2 ⟨by omega, hempty⟩)]
    have hrun := htracks.run capacity (protocols.map (·.role)) 0
    simpa only [remaining_start, Nat.zero_add] using hrun

end Verdict

/-- Two partitions only send. Of `total` items that the first one sends to the other, those that it
has sent are all on their channel. -/
structure OnlySends {α : Type} (capacity total : Nat) (t : Transit α) : Prop where
  sends : ∀ p, ∀ o ∈ t.todo p, o.transfer = .send
  below : ∀ o ∈ t.todo 0, o.neighbor = .below
  room : (t.inbox 1 .above).length ≤ capacity
  total_eq : (t.todo 0).length + (t.inbox 1 .above).length = total

namespace OnlySends

variable {α : Type} {capacity total p : Nat} {t u : Transit α}

theorem move (h : OnlySends capacity total t) (hmove : t.move? 2 capacity p = some u) :
    OnlySends capacity total u := by
  obtain ⟨o, rest, htodo, htodo', hsend | hreceive⟩ := Transit.move?_cases hmove
  · obtain ⟨-, -, q, hq, hlt, hinbox⟩ := hsend
    have hsub : ∀ x, ∀ o ∈ u.todo x, o ∈ t.todo x := by
      intro x o' ho'
      rw [htodo'] at ho'
      by_cases hx : x = p
      · rw [hx, Function.update_self] at ho'
        rw [hx, htodo]
        exact List.mem_cons_of_mem _ ho'
      · rwa [Function.update_of_ne hx] at ho'
    have hitems := hinbox 1 .above
    have htotal := h.total_eq
    suffices hchannel : (u.inbox 1 .above).length ≤ capacity ∧
        (u.todo 0).length + (u.inbox 1 .above).length = total by
      exact ⟨fun x o ho => h.sends x o (hsub x o ho), fun o ho => h.below o (hsub 0 o ho),
        hchannel.1, hchannel.2⟩
    -- only partition 0 sends into this channel
    by_cases hp : p = 0
    · subst hp
      rw [h.below o (by simp [htodo])] at hq hlt hitems
      cases hq
      rw [if_pos ⟨rfl, rfl⟩] at hitems
      rw [htodo, List.length_cons] at htotal
      rw [hitems, htodo', Function.update_self, List.length_append, List.length_singleton]
      exact ⟨hlt, by omega⟩
    · rw [if_neg ?_] at hitems
      · rw [hitems, htodo', Function.update_of_ne (Ne.symm hp)]
        exact ⟨h.room, htotal⟩
      · rintro ⟨rfl, hopposite⟩
        cases hnb : o.neighbor with
        | above => simp [hnb, Neighbor.opposite] at hopposite
        | below =>
          simp only [hnb, peer?, Option.ite_none_right_eq_some, Option.some.injEq] at hq
          omega
  · have hsend := h.sends p o (by simp [htodo])
    rw [hreceive.1] at hsend
    cases hsend

theorem moves (h : OnlySends capacity total t) (hmoves : Transit.Moves 2 capacity t u) :
    OnlySends capacity total u := by
  induction hmoves with
  | refl => exact h
  | step p hmove _ ih => exact ih (h.move hmove)

end OnlySends

section Halos

variable {α : Type} {plan : Plan} {n sweeps wordsPerRow capacity : Nat}
  {chain : List ExchangeProtocol}

/-- In a chain of at least two partitions with more than one sweep everybody has a protocol. -/
theorem map_some_exchangeChain (hn : 2 ≤ n) (hsweeps : 2 ≤ sweeps)
    (h : Generate.exchangeChain (Role.assign n sweeps) plan wordsPerRow = .ok chain) :
    (Role.assign n sweeps).mapM (ExchangeProtocol.forRole · plan wordsPerRow) =
      .ok (chain.map some) := by
  unfold Generate.exchangeChain at h
  obtain ⟨protocols, hprotocols, hchain⟩ := bind_eq_ok.1 h
  cases hchain
  have hlen : protocols.length = n := by
    rw [← (mapM_eq_ok_iff.1 hprotocols).length_eq, Role.length_assign]
    omega
  rw [hprotocols, List.map_filterMap_some_eq_filter_map_isSome, List.map_id]
  congr 1
  refine (List.filter_eq_self.2 fun x hx => ?_).symm
  obtain ⟨p, hp⟩ := List.getElem?_of_mem hx
  have hlt := (List.getElem?_eq_some_iff.1 hp).1
  obtain ⟨-, -, role, hget⟩ := getElem?_protocols (by omega) hprotocols (hlen ▸ hlt)
  rw [Option.some.inj (hp.symm.trans hget)]
  rfl

theorem length_exchangeChain (hn : 2 ≤ n) (hsweeps : 2 ≤ sweeps)
    (h : Generate.exchangeChain (Role.assign n sweeps) plan wordsPerRow = .ok chain) :
    chain.length = n := by
  have hlen := (mapM_eq_ok_iff.1 (map_some_exchangeChain hn hsweeps h)).length_eq
  rw [Role.length_assign, List.length_map] at hlen
  omega

theorem connected_exchangeChain (hn : 2 ≤ n) (hsweeps : 2 ≤ sweeps)
    (h : Generate.exchangeChain (Role.assign n sweeps) plan wordsPerRow = .ok chain) :
    Connected chain := by
  intro p protocol hp s hs
  have hlen := length_exchangeChain hn hsweeps h
  have hlt := (List.getElem?_eq_some_iff.1 hp).1
  obtain ⟨-, -, role, hget⟩ := getElem?_protocols (by omega)
    (map_some_exchangeChain hn hsweeps h) (hlen ▸ hlt)
  rw [List.getElem?_map, hp] at hget
  cases hget
  rw [hlen]
  exact exists_peer_of_mem_stepsAt (List.mem_of_mem_filter hs)

/-- The steps of a chain move as many rows as a halo has. -/
theorem rows_mul_exchangeChain (hn : 2 ≤ n) (hsweeps : 2 ≤ sweeps)
    (htop : plan.topRows * wordsPerRow < 2 ^ 64) (hbottom : plan.bottomRows * wordsPerRow < 2 ^ 64)
    (h : Generate.exchangeChain (Role.assign n sweeps) plan wordsPerRow = .ok chain) :
    ∀ protocol ∈ chain, ∀ s ∈ protocol.steps, s.rows * protocol.wordsPerRow < 2 ^ 64 := by
  intro protocol hprotocol s hs
  obtain ⟨p, hp⟩ := List.getElem?_of_mem hprotocol
  have hlt := (List.getElem?_eq_some_iff.1 hp).1
  obtain ⟨-, -, role, hget⟩ := getElem?_protocols (by omega)
    (map_some_exchangeChain hn hsweeps h) (length_exchangeChain hn hsweeps h ▸ hlt)
  rw [List.getElem?_map, hp] at hget
  cases hget
  rcases mem_withAbove_append_withBelow (mem_stepsAt (List.mem_of_mem_filter hs)) with
    rfl | rfl | rfl | rfl <;> assumption

/-- The exchange of halo rows passes the check, over channels of any capacity, and wherever an
interleaving has got to, it can be continued until everything is done and the channels are empty.
The words of a halo have to fit into a word. -/
theorem exchange_completes (hn : 2 ≤ n) (hsweeps : 2 ≤ sweeps) (hcap : 1 ≤ capacity)
    (htop : plan.topRows * wordsPerRow < 2 ^ 64) (hbottom : plan.bottomRows * wordsPerRow < 2 ^ 64)
    (h : Generate.exchangeChain (Role.assign n sweeps) plan wordsPerRow = .ok chain)
    (buffer : Nat → Nat → α) :
    (∃ rounds, checkProgress chain capacity = .ok rounds) ∧
    ∀ t, Transit.Moves n capacity (.start (programs (chain.map some)) buffer) t →
      ∃ u, Transit.Moves n capacity t u ∧ (∀ p, u.todo p = []) ∧
        ∀ p q nb, p < n → peer? n p nb = some q → u.inbox p nb = [] := by
  have hlen := length_exchangeChain hn hsweeps h
  obtain ⟨hhalos, hprograms⟩ :=
    programs_eq (by omega) (by omega) (map_some_exchangeChain hn hsweeps h)
  have ho : Orderly n (chainProgram plan wordsPerRow n) := orderly_chainProgram hhalos
  constructor
  · have hconnected := connected_exchangeChain hn hsweeps h
    have hwords := rows_mul_exchangeChain hn hsweeps htop hbottom h
    rcases checkProgress_cases (by omega) hconnected hwords capacity buffer with
      ⟨r, -, hok, -⟩ | ⟨-, -, t, -, ht, hstuck, hleft⟩
    · exact ⟨r, hok⟩
    · rw [hlen, hprograms] at ht
      obtain ⟨p, u, hu⟩ := exists_move_of_moves hhalos hcap ht hleft
      rw [hlen] at hstuck
      cases (hstuck p).symm.trans hu
  · rw [hprograms]
    intro t ht
    obtain ⟨done, hinv⟩ := Invariant.moves ho.toSound ht (invariant_start ..)
    obtain ⟨u, hu, hend⟩ := hinv.completes ho hcap
    obtain ⟨done', hinv'⟩ := Invariant.moves ho.toSound hu hinv
    exact ⟨u, hu, hend, fun p q nb hp hq => ((hinv'.delivered ho hend).1 p q nb hp hq).1⟩

end Halos

/-- Three bands, of which the one in the middle talks to both others, over channels for one word. -/
theorem three_bands_complete :
    let plan : Plan := ⟨1, 2, ⟨1, 2⟩, [Plan.stageRange 1 2 ⟨1, 2⟩ 0]⟩
    let chain : List ExchangeProtocol :=
      [⟨.up, 2, [⟨.below, .send, 2, 1⟩, ⟨.below, .receive, 3, 2⟩]⟩,
        ⟨.mid, 2, [⟨.above, .receive, 0, 1⟩, ⟨.above, .send, 1, 2⟩, ⟨.below, .send, 2, 1⟩,
          ⟨.below, .receive, 3, 2⟩]⟩,
        ⟨.down, 2, [⟨.above, .receive, 0, 1⟩, ⟨.above, .send, 1, 2⟩]⟩]
    Generate.exchangeChain (Role.assign 3 2) plan 2 = .ok chain ∧
    (∃ rounds, checkProgress chain 1 = .ok rounds) ∧
    ∀ t, Transit.Moves 3 1 (.start (programs (chain.map some)) fun p a => (p, a)) t →
      ∃ u, Transit.Moves 3 1 t u ∧ (∀ p, u.todo p = []) ∧
        ∀ p q nb, p < 3 → peer? 3 p nb = some q → u.inbox p nb = [] := by
  intro plan chain
  have hchain : Generate.exchangeChain (Role.assign 3 2) plan 2 = .ok chain := by decide
  exact ⟨hchain, exchange_completes (by decide) (by decide) (by decide) (by decide) (by decide)
    hchain _⟩

end GridSweep.Exchange
