import GridSweep.Proofs.LineBuffer.Stepping

/-!
# Draining a line buffer

The queues of a buffer hold the rest of their grid rows after any number of steps, so the words that
`drain` takes are there, and nothing is left.
-/

namespace GridSweep

namespace LineBuffer

variable {w : Nat} {b : LineBuffer} {m : Machine w} {val : Nat → BitVec w} {base : Nat}
  {s s' : Store w}

theorem get?_dropWhile {x r : Int} (hx : r ≤ x) (l : List (Int × Nat)) :
    Ordered.get? x (l.dropWhile (·.1 < r)) = Ordered.get? x l := by
  induction l with
  | nil => rfl
  | cons p l ih =>
    obtain ⟨y, k⟩ := p
    by_cases hy : y < r
    · have hne : x ≠ y := by omega
      rw [List.dropWhile_cons_of_pos (by simpa using hy), ih]
      simp [Ordered.get?, List.lookup_cons, beq_eq_false_iff_ne.2 hne]
    · rw [List.dropWhile_cons_of_neg (by simpa using hy)]

theorem drainQueues_eq (b : LineBuffer) (es : List Element)
    (hsorted : es.Pairwise fun e e' => e.row ≤ e'.row) : ∀ counts : List (Int × Nat),
      b.drainQueues counts es =
        es.map fun e => .queue e.name (b.rowWords - (Ordered.get? e.row counts).getD 0) := by
  induction es with
  | nil => intro _; rfl
  | cons e es ih =>
    intro counts
    obtain ⟨hle, hsorted⟩ := List.pairwise_cons.1 hsorted
    simp only [drainQueues, ih hsorted, List.map_cons]
    rw [get?_dropWhile (Int.le_refl _)]
    congr 1
    exact List.map_congr_left fun e' he' => by rw [get?_dropWhile (hle e' he')]

theorem sorted_queues {l : List (Int × Nat)} {r : Int} (hc : Contiguous r l) :
    ((b.flowOf l).filter (·.isQueue)).Pairwise fun e e' => e.row ≤ e'.row := by
  have hnone : ∀ row k, (b.blockElements row k).filter (·.isQueue) = [] := fun row k =>
    List.filter_eq_nil_iff.2 fun e he => by simp [isQueue_of_mem_blockElements he]
  fun_induction flowOf b l generalizing r with
  | case1 => exact List.Pairwise.nil
  | case2 row k =>
    rw [hnone]
    exact List.Pairwise.nil
  | case3 row k below hne ih =>
    obtain ⟨hrow, hc⟩ := hc
    rw [List.filter_append, hnone, List.nil_append, List.filter_cons_of_pos rfl]
    refine List.pairwise_cons.2 ⟨fun e he => ?_, ih hc⟩
    obtain ⟨he, hq⟩ := List.mem_filter.1 he
    obtain ⟨k, hk, -⟩ := queue_of_mem_flowOf hc he hq
    have := (hc.mem_iff _).1 ⟨k, hk⟩
    simp only at hrow ⊢
    omega

theorem Laid.drain_eq (hl : b.Laid) :
    b.drain = (b.flow.filter (·.isQueue)).map fun e =>
      .queue e.name (b.rowWords - b.blocks e.row) := by
  rw [drain, drainQueues_eq]
  · rfl
  · rw [hl.flow_eq]
    exact sorted_queues hl.contiguous

/-- A queue with enough words gives them. -/
theorem popMany_ok {q : String} {n : Nat} (h : n ≤ (s.queues q).length) :
    ∃ s', s.popMany q n = .ok s' ∧ s'.queues q = (s.queues q).drop n ∧ Store.Within [q] s s' := by
  unfold Store.popMany
  induction n with
  | zero => exact ⟨s, rfl, rfl, .refl ..⟩
  | succ n ih =>
    obtain ⟨s₁, hs₁, hq, hw⟩ := ih (by omega)
    rw [foldlM_range_succ, hs₁, ok_bind]
    obtain ⟨v, vs, hvs⟩ : ∃ v vs, s₁.queues q = v :: vs := by
      refine List.exists_cons_of_ne_nil fun hnil => ?_
      have := congrArg List.length (hq.symm.trans hnil)
      simp at this
      omega
    refine ⟨s₁.setQueue q vs, by simp [Store.pop, hvs], ?_, hw.trans (Store.within_setQueue ..)⟩
    rw [Store.queues_setQueue_self, ← List.tail_drop, ← hq, hvs, List.tail_cons]

/-- Queues are emptied one after the other. -/
theorem drain_queues (count : Element → Nat) (es : List Element) :
    ∀ m : Machine w, (namesOf es).Nodup →
      (∀ e ∈ es, (m.store.queues e.name).length = count e) →
      ∃ s, m.drain (es.map fun e => .queue e.name (count e)) = .ok { m with store := s } ∧
        (∀ e ∈ es, s.queues e.name = []) ∧ Store.Within (namesOf es) m.store s := by
  induction es with
  | nil => intro m _ _; exact ⟨m.store, rfl, by simp, .refl ..⟩
  | cons e es ih =>
    intro m hnd hlen
    obtain ⟨he, hnd⟩ := List.nodup_cons.1 hnd
    obtain ⟨s₁, hs₁, hq₁, hw₁⟩ := popMany_ok (Nat.le_of_eq (hlen e List.mem_cons_self).symm)
    obtain ⟨s₂, hs₂, hq₂, hw₂⟩ := ih { m with store := s₁ } hnd fun x hx => by
      have hne : x.name ≠ e.name := fun h => he (List.mem_map.2 ⟨x, hx, h⟩)
      rw [hw₁.queues_eq _ (by simpa using hne)]
      exact hlen x (List.mem_cons_of_mem _ hx)
    refine ⟨s₂, ?_, ?_, (hw₁.mono (by simp [namesOf])).trans (hw₂.mono (List.subset_cons_self ..))⟩
    · simp only [Machine.drain, List.map_cons, List.foldlM_cons, DrainOp.exec, hs₁, ok_bind,
        pure_eq_ok]
      exact hs₂
    · intro x hx
      rcases List.mem_cons.1 hx with rfl | hx
      · rw [hw₂.queues_eq _ he, hq₁, List.drop_eq_nil_of_le]
        exact Nat.le_of_eq (hlen x List.mem_cons_self)
      · exact hq₂ x hx

/-- A buffer can be drained at any time. -/
theorem Holds.drain (hl : b.Laid) (h : b.Holds val base m.store) :
    ∃ s, m.drain b.drain = .ok { m with store := s } ∧
      (∀ e ∈ b.flow, e.isQueue → s.queues e.name = []) ∧
      Store.Within (namesOf b.flow) m.store s := by
  rw [hl.drain_eq]
  have hsub : (b.flow.filter (·.isQueue)).Sublist b.flow := List.filter_sublist
  obtain ⟨s, hs, hq, hw⟩ := drain_queues (fun e => b.rowWords - b.blocks e.row)
    (b.flow.filter (·.isQueue)) m (hl.nodup_flow.sublist (hsub.map _)) fun e he => by
      obtain ⟨he, hqe⟩ := List.mem_filter.1 he
      exact h.length_queue hl he hqe
  exact ⟨s, hs, fun e he hqe => hq e (List.mem_filter.2 ⟨he, hqe⟩),
    hw.mono (hsub.map _).subset⟩

end LineBuffer

end GridSweep
