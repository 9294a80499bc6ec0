import GridSweep.Proofs.Exchange.Interleaving
import Mathlib.Algebra.BigOperators.Group.Finset.Basic
import Mathlib.Algebra.Order.BigOperators.Group.Finset

/-!
# Completing an exchange

Programs that fit together, and that are done with the neighbour above before they start with the
one below, always come to an end: the first partition that is not done can move, or the one below it
can. What has arrived at the end does not depend on the order of the moves.
-/

namespace GridSweep.Exchange

/-- The order of a program: first everything with the neighbour above. -/
def Op.rank (o : Op) : Nat :=
  match o.neighbor, o.transfer with
  | .above, .receive => 0
  | .above, .send => 1
  | .below, .send => 2
  | .below, .receive => 3

theorem Op.neighbor_of_rank_le {o : Op} (h : o.rank ≤ 1) : o.neighbor = .above := by
  unfold Op.rank at h
  split at h <;> simp_all

theorem Op.transfer_of_rank_le {o : Op} (h : o.rank ≤ 0) : o.transfer = .receive := by
  unfold Op.rank at h
  split at h <;> simp_all

/-- Programs that fit together, and whose operations are in order. -/
structure Orderly (n : Nat) (programs : Nat → List Op) : Prop extends Sound n programs where
  balanced : ∀ p q nb, p < n → peer? n p nb = some q →
    (places (programs q) .send nb.opposite).length = (places (programs p) .receive nb).length
  sorted : ∀ p, (programs p).Pairwise (·.rank ≤ ·.rank)

section Ending

variable {α : Type} {n capacity p q : Nat} {programs done : Nat → List Op} {orig : Nat → Nat → α}
  {t u : Transit α} {o : Op} {rest : List Op} {nb : Neighbor} {transfer : Transfer}

theorem Transit.exists_send (htodo : t.todo p = o :: rest) (ho : o.transfer = .send)
    (hq : peer? n p o.neighbor = some q)
    (hroom : (t.inbox q o.neighbor.opposite).length < capacity) :
    ∃ u, t.move? n capacity p = some u := by
  unfold move?
  rw [htodo]
  simp only [ho, hq, Option.bind_eq_bind, Option.bind_some, if_pos hroom]
  exact ⟨_, rfl⟩

theorem Transit.exists_receive (n capacity : Nat) (htodo : t.todo p = o :: rest)
    (ho : o.transfer = .receive) (hne : t.inbox p o.neighbor ≠ []) :
    ∃ u, t.move? n capacity p = some u := by
  obtain ⟨v, items, hv⟩ := List.exists_cons_of_ne_nil hne
  unfold move?
  rw [htodo]
  simp only [ho, hv]
  exact ⟨_, rfl⟩

theorem Transit.places_todo_pos (htodo : t.todo p = o :: rest) (ht : o.transfer = transfer)
    (hnb : o.neighbor = nb) : 0 < (places (t.todo p) transfer nb).length := by
  rw [htodo, ← List.singleton_append, places_append, places_singleton_self ⟨ht, hnb⟩]
  simp

theorem Invariant.count (h : Invariant n programs orig done t) (p : Nat) (transfer : Transfer)
    (nb : Neighbor) : (places (programs p) transfer nb).length =
      (places (done p) transfer nb).length + (places (t.todo p) transfer nb).length := by
  rw [h.split p, places_append, List.length_append]

theorem Invariant.link_length (h : Invariant n programs orig done t) (hp : p < n)
    (hq : peer? n p nb = some q) : (places (done q) .send nb.opposite).length =
      (places (done p) .receive nb).length + (t.inbox p nb).length := by
  simpa using congrArg List.length (h.link p q nb hp hq)

/-- A partition that has an operation left is not past it. -/
theorem Invariant.head_rank (ho : Orderly n programs) (h : Invariant n programs orig done t)
    (p : Nat) (transfer : Transfer) (nb : Neighbor)
    (hpos : 0 < (places (t.todo p) transfer nb).length) :
    ∃ o rest, t.todo p = o :: rest ∧ o.rank ≤ Op.rank ⟨nb, transfer, 0⟩ := by
  obtain ⟨a, ha⟩ := List.exists_mem_of_length_pos hpos
  obtain ⟨o', ho', rfl, rfl, -⟩ := mem_places.1 ha
  obtain ⟨o, rest, htodo⟩ := List.exists_cons_of_ne_nil (List.ne_nil_of_mem ho')
  refine ⟨o, rest, htodo, ?_⟩
  have hsorted := ho.sorted p
  rw [h.split p, htodo, List.pairwise_append] at hsorted
  rw [htodo] at ho'
  rcases List.mem_cons.1 ho' with rfl | hin
  · exact Nat.le_refl _
  · exact (List.pairwise_cons.1 hsorted.2.1).1 o' hin

/-- A partition whose neighbour above is done does not wait for it. -/
theorem Invariant.move_above (ho : Orderly n programs) (h : Invariant n programs orig done t)
    (hp : p < n) (htodo : t.todo p = o :: rest) (habove : o.neighbor = .above)
    (hq : peer? n p .above = some q) (hdone : t.todo q = []) :
    ∃ u, t.move? n capacity p = some u := by
  obtain ⟨hqn, hback⟩ := peer?_symm hp hq
  have hall : ∀ transfer nb, (places (programs q) transfer nb).length =
      (places (done q) transfer nb).length := by
    intro transfer nb
    rw [h.count q, hdone]
    rfl
  cases ht : o.transfer with
  | receive =>
    have hlink := h.link_length hp hq
    have hbal := ho.balanced p q .above hp hq
    have hcount := h.count p .receive .above
    have hleft := Transit.places_todo_pos htodo ht habove
    rw [hall] at hbal
    refine Transit.exists_receive n capacity htodo ht (List.ne_nil_of_length_pos ?_)
    rw [habove]
    omega
  | send =>
    -- the neighbour has received what has not been sent
    exfalso
    have hlink := h.link_length hqn hback
    have hbal := ho.balanced q p .below hqn hback
    have hcount := h.count p .send .above
    have hleft := Transit.places_todo_pos htodo ht habove
    rw [hall] at hbal
    simp only [Neighbor.opposite] at hlink hbal
    omega

/-- A partition that waits for its neighbour below finds that one able to move. -/
theorem Invariant.move_below (ho : Orderly n programs) (hcap : 0 < capacity)
    (h : Invariant n programs orig done t) (hp : p < n) (htodo : t.todo p = o :: rest)
    (hbelow : o.neighbor = .below) (hq : peer? n p .below = some q) :
    ∃ p' u, t.move? n capacity p' = some u := by
  obtain ⟨hqn, hback⟩ := peer?_symm hp hq
  have hdown := h.link_length hqn hback
  have hup := h.link_length hp hq
  have hbalDown := ho.balanced q p .above hqn hback
  have hbalUp := ho.balanced p q .below hp hq
  have hsent := h.count p .send .below
  have hgot := h.count p .receive .below
  have hsent' := h.count q .send .above
  have hgot' := h.count q .receive .above
  simp only [Neighbor.opposite] at hdown hup hbalDown hbalUp hback
  cases ht : o.transfer with
  | send =>
    have hleft := Transit.places_todo_pos htodo ht hbelow
    by_cases hroom : (t.inbox q .above).length < capacity
    · obtain ⟨u, hu⟩ := Transit.exists_send htodo ht (hbelow ▸ hq) (by rw [hbelow]; exact hroom)
      exact ⟨p, u, hu⟩
    · -- the channel is full, and the neighbour takes from it first
      obtain ⟨o', rest', htodo', hrank⟩ := h.head_rank ho q .receive .above (by omega)
      have habove := Op.neighbor_of_rank_le (hrank.trans (Nat.zero_le 1))
      obtain ⟨u, hu⟩ := Transit.exists_receive n capacity htodo' (Op.transfer_of_rank_le hrank)
        (List.ne_nil_of_length_pos (by rw [habove]; omega))
      exact ⟨q, u, hu⟩
  | receive =>
    have hleft := Transit.places_todo_pos htodo ht hbelow
    by_cases hsome : t.inbox p .below = []
    swap
    · obtain ⟨u, hu⟩ := Transit.exists_receive n capacity htodo ht (by rw [hbelow]; exact hsome)
      exact ⟨p, u, hu⟩
    · rw [hsome, List.length_nil] at hup
      -- everything has been sent down, and not everything has come up
      have hnone : (places (t.todo p) .send .below).length = 0 := by
        by_contra hne
        obtain ⟨o₁, rest₁, htodo₁, hrank⟩ := h.head_rank ho p _ _ (Nat.pos_of_ne_zero hne)
        rw [htodo] at htodo₁
        cases htodo₁
        simp [Op.rank, ht, hbelow] at hrank
      obtain ⟨o', rest', htodo', hrank⟩ := h.head_rank ho q .send .above (by omega)
      have habove := Op.neighbor_of_rank_le hrank
      cases ht' : o'.transfer with
      | send =>
        have hroom : (t.inbox p o'.neighbor.opposite).length < capacity := by
          rw [habove, Neighbor.opposite, hsome]
          exact hcap
        obtain ⟨u, hu⟩ := Transit.exists_send htodo' ht' (habove ▸ hback) hroom
        exact ⟨q, u, hu⟩
      | receive =>
        have hleft' := Transit.places_todo_pos htodo' ht' habove
        obtain ⟨u, hu⟩ := Transit.exists_receive n capacity htodo' ht'
          (List.ne_nil_of_length_pos (by rw [habove]; omega))
        exact ⟨q, u, hu⟩

/-- As long as anything is left to do, some partition can move. -/
theorem Invariant.exists_move (ho : Orderly n programs) (hcap : 0 < capacity)
    (h : Invariant n programs orig done t) (hleft : ∃ p, t.todo p ≠ []) :
    ∃ p u, t.move? n capacity p = some u := by
  classical
  -- the first partition that is not done
  obtain ⟨o, rest, htodo⟩ := List.exists_cons_of_ne_nil (Nat.find_spec hleft)
  have hmin : ∀ q < Nat.find hleft, t.todo q = [] := fun q hq => not_not.1 (Nat.find_min hleft hq)
  generalize Nat.find hleft = p at htodo hmin
  have hmem : o ∈ programs p := by
    rw [h.split p, htodo]
    exact List.mem_append_right _ List.mem_cons_self
  have hp : p < n := by
    by_contra hge
    rw [ho.inside p (by omega)] at hmem
    cases hmem
  obtain ⟨q, hq⟩ := ho.peer p o hmem
  cases hnb : o.neighbor with
  | above =>
    rw [hnb] at hq
    have hlt : q < p := by
      simp only [peer?, Option.ite_none_right_eq_some, Option.some.injEq] at hq
      omega
    obtain ⟨u, hu⟩ := h.move_above ho hp htodo hnb hq (hmin q hlt)
    exact ⟨p, u, hu⟩
  | below =>
    rw [hnb] at hq
    exact h.move_below ho hcap hp htodo hnb hq

/-- A move leaves less to do. -/
theorem Transit.sum_todo_lt (hp : p < n) (h : t.move? n capacity p = some u) :
    ∑ x ∈ Finset.range n, (u.todo x).length < ∑ x ∈ Finset.range n, (t.todo x).length := by
  obtain ⟨o, rest, htodo, hu, -⟩ := Transit.move?_cases h
  rw [hu]
  refine Finset.sum_lt_sum (fun x _ => ?_) ⟨p, Finset.mem_range.2 hp, ?_⟩
  · by_cases hx : x = p
    · subst hx
      rw [Function.update_self, htodo]
      simp
    · rw [Function.update_of_ne hx]
  · rw [Function.update_self, htodo]
    simp

/-- Whatever has been done so far, the exchange can be brought to its end. -/
theorem Invariant.completes (ho : Orderly n programs) (hcap : 0 < capacity)
    (h : Invariant n programs orig done t) :
    ∃ u, Transit.Moves n capacity t u ∧ ∀ p, u.todo p = [] := by
  generalize hsize : ∑ x ∈ Finset.range n, (t.todo x).length = size
  induction size using Nat.strong_induction_on generalizing t done with
  | _ size ih =>
    by_cases hleft : ∃ p, t.todo p ≠ []
    · obtain ⟨p, u, hu⟩ := h.exists_move ho hcap hleft
      obtain ⟨done', h'⟩ := h.move ho.toSound hu
      have hp : p < n := by
        by_contra hge
        obtain ⟨o, rest, htodo, -⟩ := Transit.move?_cases hu
        have hsplit := h.split p
        rw [ho.inside p (by omega), htodo] at hsplit
        exact List.cons_ne_nil _ _ (List.append_eq_nil_iff.1 hsplit.symm).2
      obtain ⟨v, hv, hend⟩ := ih _ (hsize ▸ Transit.sum_todo_lt hp hu) h' rfl
      exact ⟨v, .step p hu hv, hend⟩
    · exact ⟨t, .refl t, fun p => not_not.1 fun hne => hleft ⟨p, hne⟩⟩

/-- At the end the channels are empty, everything that was sent has been received, and all other
places are as they were. -/
theorem Invariant.delivered (ho : Orderly n programs) (h : Invariant n programs orig done t)
    (hend : ∀ p, t.todo p = []) :
    (∀ p q nb, p < n → peer? n p nb = some q → t.inbox p nb = [] ∧
      (places (programs p) .receive nb).map (t.buffer p) =
        (places (programs q) .send nb.opposite).map (orig q)) ∧
      ∀ p a, (∀ nb, a ∉ places (programs p) .receive nb) → t.buffer p a = orig p a := by
  have hdone : ∀ p, done p = programs p := by
    intro p
    rw [h.split p, hend, List.append_nil]
  refine ⟨fun p q nb hp hq => ?_, fun p a ha => h.kept p a (hdone p ▸ ha)⟩
  have hlink := h.link p q nb hp hq
  have hlen := h.link_length hp hq
  rw [hdone, hdone] at hlink hlen
  have hnil : t.inbox p nb = [] := by
    rw [ho.balanced p q nb hp hq] at hlen
    exact List.length_eq_zero_iff.1 (by omega)
  rw [hnil, List.append_nil] at hlink
  exact ⟨hnil, hlink.symm⟩

end Ending

end GridSweep.Exchange
