import GridSweep.Proofs.Outcome
import Mathlib.Data.List.Nodup

/-!
# Moving a flow by one word

The elements of a flow together hold a row of words, front first. In a step each element takes
the front word of its successor, from the front of the flow to its back, and the last one takes a
new word. An element has given its front word away before it receives one, so a queue needs no more
room than for one word beyond what it holds.

`exec_shifts` says what a whole step does: the words of the flow move up by one, whatever the mix of
registers and queues. `exec_shifts_empty` says that a step stops at an empty queue.
-/

namespace GridSweep

namespace Store

variable {w : Nat} {s s' s'' : Store w} {e t : Element} {v : BitVec w}

/-- The words of an element, front first. -/
def contents (s : Store w) (e : Element) : List (BitVec w) :=
  if e.isQueue then s.queues e.name else [s.regs e.name]

/-- What counts of an element that has given its front word away: a register keeps nothing. -/
def opened (s : Store w) (e : Element) : List (BitVec w) :=
  if e.isQueue then s.queues e.name else []

/-- A queue holds no more words than it has room for. -/
def Fits (s : Store w) (e : Element) : Prop :=
  e.isQueue → (s.queues e.name).length ≤ s.depths e.name

/-- A queue has room for exactly one more word. -/
def Level (s : Store w) (e : Element) : Prop :=
  e.isQueue → (s.queues e.name).length + 1 = s.depths e.name

/-- `s'` differs from `s` only in elements whose names are in `names`. -/
structure Within (names : List String) (s s' : Store w) : Prop where
  regs_eq : ∀ n ∉ names, s'.regs n = s.regs n
  queues_eq : ∀ n ∉ names, s'.queues n = s.queues n
  depths_eq : s'.depths = s.depths

namespace Within

variable {names names' : List String}

theorem refl (names : List String) (s : Store w) : Within names s s :=
  ⟨fun _ _ => rfl, fun _ _ => rfl, rfl⟩

theorem trans (h : Within names s s') (h' : Within names s' s'') : Within names s s'' :=
  ⟨fun n hn => (h'.regs_eq n hn).trans (h.regs_eq n hn),
    fun n hn => (h'.queues_eq n hn).trans (h.queues_eq n hn), h'.depths_eq.trans h.depths_eq⟩

theorem mono (h : Within names s s') (hsub : names ⊆ names') : Within names' s s' :=
  ⟨fun n hn => h.regs_eq n fun hm => hn (hsub hm),
    fun n hn => h.queues_eq n fun hm => hn (hsub hm), h.depths_eq⟩

theorem contents_eq (h : Within names s s') (he : e.name ∉ names) :
    s'.contents e = s.contents e := by
  simp only [contents, h.regs_eq _ he, h.queues_eq _ he]

theorem opened_eq (h : Within names s s') (he : e.name ∉ names) :
    s'.opened e = s.opened e := by
  simp only [opened, h.queues_eq _ he]

theorem fits_iff (h : Within names s s') (he : e.name ∉ names) : s'.Fits e ↔ s.Fits e := by
  simp only [Fits, h.queues_eq _ he, h.depths_eq]

theorem level_iff (h : Within names s s') (he : e.name ∉ names) : s'.Level e ↔ s.Level e := by
  simp only [Level, h.queues_eq _ he, h.depths_eq]

end Within

theorem within_setReg (s : Store w) (name : String) (v : BitVec w) :
    Within [name] s (s.setReg name v) :=
  ⟨fun _ hn => Function.update_of_ne (by simpa using hn) .., fun _ _ => rfl, rfl⟩

theorem within_setQueue (s : Store w) (name : String) (vs : List (BitVec w)) :
    Within [name] s (s.setQueue name vs) :=
  ⟨fun _ _ => rfl, fun _ hn => Function.update_of_ne (by simpa using hn) .., rfl⟩

@[simp] theorem regs_setReg_self (s : Store w) (name : String) (v : BitVec w) :
    (s.setReg name v).regs name = v := Function.update_self ..

@[simp] theorem queues_setQueue_self (s : Store w) (name : String) (vs : List (BitVec w)) :
    (s.setQueue name vs).queues name = vs := Function.update_self ..

/-! ## Taking and putting -/

theorem push_ok {q : String} (h : (s.queues q).length < s.depths q) :
    s.push q v = .ok (s.setQueue q (s.queues q ++ [v])) := if_pos h

/-- An element that holds a word gives its front word. -/
theorem take_ok (h : s.contents e ≠ []) :
    ∃ v s', s.take e = .ok (v, s') ∧ s.contents e = v :: s'.opened e ∧ Within [e.name] s s' := by
  unfold contents at h ⊢
  by_cases hq : e.isQueue
  · rw [if_pos hq] at h ⊢
    obtain ⟨v, vs, hvs⟩ := List.exists_cons_of_ne_nil h
    refine ⟨v, s.setQueue e.name vs, ?_, ?_, within_setQueue ..⟩
    · simp only [take, if_pos hq, pop, hvs]
    · simp only [opened, if_pos hq, hvs, queues_setQueue_self]
  · rw [if_neg hq]
    exact ⟨s.regs e.name, s, by simp [take, hq], by simp [opened, hq], Within.refl ..⟩

theorem take_empty (hq : e.isQueue) (h : s.queues e.name = []) :
    s.take e = .error (.emptyQueue e.name) := by
  simp only [take, if_pos hq, pop, h]

/-- An element with room receives a word at its back. -/
theorem put_ok (v : BitVec w) (h : e.isQueue → (s.queues e.name).length < s.depths e.name) :
    ∃ s', s.put e v = .ok s' ∧ s'.contents e = s.opened e ++ [v] ∧ Within [e.name] s s' := by
  by_cases hq : e.isQueue
  · refine ⟨s.setQueue e.name (s.queues e.name ++ [v]), ?_, ?_, within_setQueue ..⟩
    · rw [put, if_pos hq, push_ok (h hq)]
    · simp only [contents, opened, if_pos hq, queues_setQueue_self]
  · refine ⟨s.setReg e.name v, by simp [put, hq], ?_, within_setReg ..⟩
    simp only [contents, opened, if_neg hq, regs_setReg_self, List.nil_append]

end Store

/-! ## A step of the flow -/

section Shifts

open LineBuffer (shifts)

variable {w : Nat} {m : Machine w} {t e : Element} {i : Nat}

/-- The names of elements. -/
def namesOf (flow : List Element) : List String := flow.map (·.name)

/-- Ready to receive: there is room for a word. -/
def Store.Room (s : Store w) (e : Element) : Prop :=
  e.isQueue → (s.queues e.name).length < s.depths e.name

/-- One shift moves the front word of `e` to the back of `t`. -/
theorem exec_shift (hne : t.name ≠ e.name) (hroom : m.store.Room t)
    (hcon : m.store.contents e ≠ []) :
    ∃ v s, AdvanceOp.exec i m (.shift t e) = .ok { m with store := s } ∧
      m.store.contents e = v :: s.opened e ∧ s.contents t = m.store.opened t ++ [v] ∧
      Store.Within [t.name, e.name] m.store s := by
  obtain ⟨v, s₁, htake, hv, hw₁⟩ := Store.take_ok hcon
  have hroom₁ : s₁.Room t := by
    simpa only [Store.Room, hw₁.queues_eq t.name (by simpa using hne), hw₁.depths_eq] using hroom
  obtain ⟨s₂, hput, hc, hw₂⟩ := Store.put_ok v hroom₁
  refine ⟨v, s₂, ?_, ?_, ?_, ?_⟩
  · simp [AdvanceOp.exec, htake, hput]
  · rw [hv, hw₂.opened_eq (by simpa using hne.symm)]
  · rw [hc, hw₁.opened_eq (by simpa using hne)]
  · exact (hw₁.mono (by simp)).trans (hw₂.mono (by simp))

/-- After a shift, `e` has room and its successors are as before. -/
theorem room_of_shift {s : Store w} {v : BitVec w} (hfit : m.store.Fits e)
    (hv : m.store.contents e = v :: s.opened e) (hd : s.depths = m.store.depths) : s.Room e := by
  intro hq
  have hlen := hfit hq
  simp only [Store.contents, Store.opened, if_pos hq] at hv
  rw [hv, List.length_cons] at hlen
  rw [hd]
  omega

/-- A step moves the words of a flow up by one, given a new word for its last element. The first
element has been opened before. -/
theorem exec_shifts (rest : List Element) :
    ∀ (t : Element) (m : Machine w), ((t :: rest).map (·.name)).Nodup → m.store.Room t →
      (∀ e ∈ rest, m.store.contents e ≠ [] ∧ m.store.Fits e) →
      ∃ s, (shifts (t :: rest)).foldlM (AdvanceOp.exec i) m = .ok { m with store := s } ∧
        ∀ last ∈ (t :: rest).getLast?, ∀ v, ∃ s', s.put last v = .ok s' ∧
          (t :: rest).flatMap s'.contents =
            m.store.opened t ++ rest.flatMap m.store.contents ++ [v] ∧
          (s'.contents t).length = (m.store.opened t).length + 1 ∧
          (∀ e ∈ rest, (s'.contents e).length = (m.store.contents e).length) ∧
          Store.Within (namesOf (t :: rest)) m.store s' := by
  induction rest with
  | nil =>
    intro t m _ hroom _
    refine ⟨m.store, rfl, ?_⟩
    intro last hlast v
    obtain rfl : t = last := by simpa using hlast
    obtain ⟨s', hput, hc, hw⟩ := Store.put_ok v hroom
    refine ⟨s', hput, by simp [hc], by simp [hc], by simp, hw.mono ?_⟩
    simp [namesOf]
  | cons e rest ih =>
    intro t m hnd hroom hrest
    obtain ⟨hcon, hfit⟩ := hrest e List.mem_cons_self
    simp only [List.map_cons, List.nodup_cons, List.mem_cons, not_or] at hnd
    obtain ⟨⟨hte, ht⟩, he, hnd⟩ := hnd
    obtain ⟨v₀, s₁, hexec, hv₀, hc₁, hw₁⟩ := exec_shift (i := i) hte hroom hcon
    have hoff : ∀ x ∈ rest, x.name ∉ [t.name, e.name] := by
      intro x hx hmem
      simp only [List.mem_cons, List.not_mem_nil, or_false] at hmem
      rcases hmem with h | h
      · exact ht (List.mem_map.2 ⟨x, hx, h⟩)
      · exact he (List.mem_map.2 ⟨x, hx, h⟩)
    -- the rest of the flow is a flow of its own, with `e` opened
    obtain ⟨s₂, hrun, hput⟩ := ih e { m with store := s₁ }
      (List.nodup_cons.2 ⟨he, hnd⟩) (room_of_shift hfit hv₀ hw₁.depths_eq)
      (fun x hx => by
        obtain ⟨h1, h2⟩ := hrest x (List.mem_cons_of_mem _ hx)
        exact ⟨by rwa [hw₁.contents_eq (hoff x hx)], (hw₁.fits_iff (hoff x hx)).2 h2⟩)
    refine ⟨s₂, ?_, ?_⟩
    · simp only [shifts, List.foldlM_cons, hexec, ok_bind]
      exact hrun
    intro last hlast v
    rw [List.getLast?_cons_cons] at hlast
    obtain ⟨s', hs', hflat, hlene, hlen, hw⟩ := hput last hlast v
    have htoff : t.name ∉ namesOf (e :: rest) := by
      simp only [namesOf, List.map_cons, List.mem_cons, not_or]
      exact ⟨hte, ht⟩
    have hct : s'.contents t = m.store.opened t ++ [v₀] := by rw [hw.contents_eq htoff, hc₁]
    refine ⟨s', hs', ?_, by simp [hct], ?_, ?_⟩
    · rw [List.flatMap_cons, hct, hflat, List.flatMap_cons, hv₀]
      rw [show rest.flatMap s₁.contents = rest.flatMap m.store.contents from
        List.flatMap_congr fun x hx => hw₁.contents_eq (hoff x hx)]
      simp
    · intro x hx
      rcases List.mem_cons.1 hx with rfl | hx
      · rw [hlene, hv₀]
        simp
      · rw [hlen x hx, hw₁.contents_eq (hoff x hx)]
    · refine (hw₁.mono ?_).trans (hw.mono ?_)
      · simp [namesOf]
      · exact List.subset_cons_self ..

/-- A step stops at the first empty queue. -/
theorem exec_shifts_empty (q : Element) (post : List Element) (hq : q.isQueue)
    (front : List Element) :
    ∀ (t : Element) (m : Machine w), ((t :: (front ++ q :: post)).map (·.name)).Nodup →
      m.store.Room t → (∀ e ∈ front, m.store.contents e ≠ [] ∧ m.store.Fits e) →
      m.store.queues q.name = [] →
      (shifts (t :: (front ++ q :: post))).foldlM (AdvanceOp.exec i) m =
        .error (.emptyQueue q.name) := by
  induction front with
  | nil =>
    intro t m _ _ _ hempty
    simp [shifts, AdvanceOp.exec, Store.take_empty hq hempty]
  | cons e front ih =>
    intro t m hnd hroom hfront hempty
    obtain ⟨hcon, hfit⟩ := hfront e List.mem_cons_self
    simp only [List.cons_append, List.map_cons, List.nodup_cons, List.mem_cons, not_or] at hnd
    obtain ⟨⟨hte, ht⟩, he, hnd⟩ := hnd
    obtain ⟨v₀, s₁, hexec, hv₀, hc₁, hw₁⟩ := exec_shift (i := i) hte hroom hcon
    have hoff : ∀ x ∈ front ++ q :: post, x.name ∉ [t.name, e.name] := by
      intro x hx hmem
      simp only [List.mem_cons, List.not_mem_nil, or_false] at hmem
      rcases hmem with h | h
      · exact ht (List.mem_map.2 ⟨x, hx, h⟩)
      · exact he (List.mem_map.2 ⟨x, hx, h⟩)
    simp only [List.cons_append, shifts, List.foldlM_cons, hexec, ok_bind]
    refine ih e { m with store := s₁ } (List.nodup_cons.2 ⟨he, hnd⟩)
      (room_of_shift hfit hv₀ hw₁.depths_eq) (fun x hx => ?_) ?_
    · have hx' : x ∈ front ++ q :: post := List.mem_append_left _ hx
      obtain ⟨h1, h2⟩ := hfront x (List.mem_cons_of_mem _ hx)
      exact ⟨by rwa [hw₁.contents_eq (hoff x hx')], (hw₁.fits_iff (hoff x hx')).2 h2⟩
    · rw [← hempty]
      exact hw₁.queues_eq _ (hoff q (by simp))

end Shifts

end GridSweep
