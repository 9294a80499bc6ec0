import GridSweep.Exchange.Protocol
import Mathlib.Logic.Function.Basic

/-!
# Interleavings of an exchange

Partitions that exchange items with their neighbours, one item at a time and in any order between
the partitions. A channel keeps its items in order and has room for a bounded number of them. A
partition waits if it would send into a full channel or receive from an empty one.

Whatever the order, nothing gets lost on a channel: what a partition has sent is what its neighbour
has received, followed by what is still on the way (`Invariant.link`).
-/

namespace GridSweep

def Neighbor.opposite : Neighbor → Neighbor
  | above => below
  | below => above

@[simp] theorem Neighbor.opposite_opposite (nb : Neighbor) : nb.opposite.opposite = nb := by
  cases nb <;> rfl

namespace Exchange

/-- One item between a place of a buffer and a neighbour. -/
structure Op where
  neighbor : Neighbor
  transfer : Transfer
  place : Nat
deriving DecidableEq, Repr

/-- The neighbour of partition `p` in a chain of `n`. -/
def peer? (n p : Nat) : Neighbor → Option Nat
  | .above => if 0 < p then some (p - 1) else none
  | .below => if p + 1 < n then some (p + 1) else none

/-- Neighbours have each other. -/
theorem peer?_symm {n p q : Nat} {nb : Neighbor} (hp : p < n) (h : peer? n p nb = some q) :
    q < n ∧ peer? n q nb.opposite = some p := by
  cases nb with
  | above =>
    simp only [peer?, Option.ite_none_right_eq_some, Option.some.injEq] at h
    obtain ⟨hpos, rfl⟩ := h
    refine ⟨by omega, ?_⟩
    simp only [Neighbor.opposite, peer?]
    rw [if_pos (by omega), Nat.sub_add_cancel hpos]
  | below =>
    simp only [peer?, Option.ite_none_right_eq_some, Option.some.injEq] at h
    obtain ⟨hlt, rfl⟩ := h
    refine ⟨hlt, ?_⟩
    simp only [Neighbor.opposite, peer?]
    rw [if_pos (by omega), Nat.add_sub_cancel]

/-- Places of the operations of one kind with one neighbour. -/
def places (ops : List Op) (transfer : Transfer) (nb : Neighbor) : List Nat :=
  (ops.filter fun o => o.transfer = transfer ∧ o.neighbor = nb).map (·.place)

section Places

variable {ops ops' : List Op} {transfer : Transfer} {nb : Neighbor} {o : Op}

@[simp] theorem places_append :
    places (ops ++ ops') transfer nb = places ops transfer nb ++ places ops' transfer nb := by
  simp [places]

theorem places_singleton_self (h : o.transfer = transfer ∧ o.neighbor = nb) :
    places [o] transfer nb = [o.place] := by
  simp [places, h]

theorem places_singleton_of_ne (h : ¬ (o.transfer = transfer ∧ o.neighbor = nb)) :
    places [o] transfer nb = [] := by
  simp [places, h]

theorem mem_places {a : Nat} :
    a ∈ places ops transfer nb ↔
      ∃ o ∈ ops, o.transfer = transfer ∧ o.neighbor = nb ∧ o.place = a := by
  simp [places, and_assoc]

end Places

/-! ## Moves -/

/-- Partitions in the middle of an exchange. -/
structure Transit (α : Type) where
  /-- What each partition has still to do. -/
  todo : Nat → List Op
  buffer : Nat → Nat → α
  /-- The items on the channel to a partition from one of its neighbours. -/
  inbox : Nat → Neighbor → List α

namespace Transit

variable {α : Type}

/-- Nothing is done, and the channels are empty. -/
def start (programs : Nat → List Op) (buffer : Nat → Nat → α) : Transit α where
  todo := programs
  buffer
  inbox _ _ := []

def setInbox (t : Transit α) (p : Nat) (nb : Neighbor) (items : List α) : Transit α :=
  { t with inbox := Function.update t.inbox p (Function.update (t.inbox p) nb items) }

/-- Partition `p` does its next operation, if it has one and does not have to wait. -/
def move? (n capacity : Nat) (t : Transit α) (p : Nat) : Option (Transit α) :=
  match t.todo p with
  | [] => none
  | o :: rest =>
    let next := { t with todo := Function.update t.todo p rest }
    match o.transfer with
    | .send => do
      let q ← peer? n p o.neighbor
      let items := t.inbox q o.neighbor.opposite
      if items.length < capacity then
        return next.setInbox q o.neighbor.opposite (items ++ [t.buffer p o.place])
      else none
    | .receive =>
      match t.inbox p o.neighbor with
      | [] => none
      | v :: items =>
        let buffer := Function.update t.buffer p (Function.update (t.buffer p) o.place v)
        return { next.setInbox p o.neighbor items with buffer }

theorem setInbox_inbox (t : Transit α) (p q : Nat) (nb nb' : Neighbor) (items : List α) :
    (t.setInbox p nb items).inbox q nb' = if q = p ∧ nb' = nb then items else t.inbox q nb' := by
  simp only [setInbox]
  by_cases hq : q = p
  · subst hq
    rw [Function.update_self]
    by_cases hnb : nb' = nb
    · rw [hnb, Function.update_self, if_pos ⟨rfl, rfl⟩]
    · rw [Function.update_of_ne hnb, if_neg fun h => hnb h.2]
  · rw [Function.update_of_ne hq, if_neg fun h => hq h.1]

/-- What a move does. -/
theorem move?_cases {n capacity p : Nat} {t u : Transit α} (h : t.move? n capacity p = some u) :
    ∃ o rest, t.todo p = o :: rest ∧ u.todo = Function.update t.todo p rest ∧
      ((o.transfer = .send ∧ u.buffer = t.buffer ∧ ∃ q, peer? n p o.neighbor = some q ∧
          (t.inbox q o.neighbor.opposite).length < capacity ∧
          ∀ q' nb, u.inbox q' nb = if q' = q ∧ nb = o.neighbor.opposite then
            t.inbox q' nb ++ [t.buffer p o.place] else t.inbox q' nb) ∨
        (o.transfer = .receive ∧ ∃ v,
          u.buffer = Function.update t.buffer p (Function.update (t.buffer p) o.place v) ∧
          t.inbox p o.neighbor = v :: u.inbox p o.neighbor ∧
          ∀ q nb, ¬ (q = p ∧ nb = o.neighbor) → u.inbox q nb = t.inbox q nb)) := by
  unfold move? at h
  split at h
  · cases h
  next o rest htodo =>
  refine ⟨o, rest, htodo, ?_⟩
  dsimp only at h
  split at h
  · next hsend =>
    obtain ⟨q, hq, h⟩ := Option.bind_eq_some_iff.1 h
    split at h
    · next hroom =>
      cases h
      refine ⟨rfl, .inl ⟨hsend, rfl, q, hq, hroom, fun q' nb => ?_⟩⟩
      rw [setInbox_inbox]
      split
      · next heq => rw [heq.1, heq.2]
      · rfl
    · cases h
  · next hreceive =>
    split at h
    · cases h
    next v items hitems =>
    cases h
    refine ⟨rfl, .inr ⟨hreceive, v, rfl, ?_, fun q nb hne => ?_⟩⟩
    · rw [hitems, setInbox_inbox, if_pos ⟨rfl, rfl⟩]
    · exact (setInbox_inbox ..).trans (if_neg hne)

/-- Any number of moves, by any partitions. -/
inductive Moves (n capacity : Nat) : Transit α → Transit α → Prop where
  | refl (t : Transit α) : Moves n capacity t t
  | step {t u v : Transit α} (p : Nat) :
    t.move? n capacity p = some u → Moves n capacity u v → Moves n capacity t v

end Transit

/-! ## What is kept -/

/-- Programs for a chain of `n` partitions: they name neighbours that exist, and what is received
goes to different places, from which nothing is sent. -/
structure Sound (n : Nat) (programs : Nat → List Op) : Prop where
  inside : ∀ p, n ≤ p → programs p = []
  peer : ∀ p, ∀ o ∈ programs p, ∃ q, peer? n p o.neighbor = some q
  nodup : ∀ p, (places (programs p) .receive .above ++ places (programs p) .receive .below).Nodup
  apart : ∀ p, ∀ o ∈ programs p, ∀ o' ∈ programs p, o.transfer = .send → o'.transfer = .receive →
    o.place ≠ o'.place

section Keeping

variable {α : Type} {n capacity p : Nat} {programs done : Nat → List Op} {orig : Nat → Nat → α}
  {t u : Transit α}

/-- The operations that are done, out of the programs, and what they have done to the buffers and
the channels. -/
structure Invariant (n : Nat) (programs : Nat → List Op) (orig : Nat → Nat → α)
    (done : Nat → List Op) (t : Transit α) : Prop where
  split : ∀ p, programs p = done p ++ t.todo p
  kept : ∀ p a, (∀ nb, a ∉ places (done p) .receive nb) → t.buffer p a = orig p a
  link : ∀ p q nb, p < n → peer? n p nb = some q →
    (places (done q) .send nb.opposite).map (orig q) =
      (places (done p) .receive nb).map (t.buffer p) ++ t.inbox p nb

theorem invariant_start (n : Nat) (programs : Nat → List Op) (orig : Nat → Nat → α) :
    Invariant n programs orig (fun _ => []) (.start programs orig) :=
  ⟨fun _ => rfl, fun _ _ _ => rfl, fun _ _ _ _ _ => rfl⟩

theorem places_update (done : Nat → List Op) (p x : Nat) (o : Op) (transfer : Transfer)
    (nb : Neighbor) :
    places (Function.update done p (done p ++ [o]) x) transfer nb = places (done x) transfer nb ++
      if x = p ∧ o.transfer = transfer ∧ o.neighbor = nb then [o.place] else [] := by
  by_cases hx : x = p
  · subst hx
    rw [Function.update_self, places_append]
    congr 1
    by_cases ho : o.transfer = transfer ∧ o.neighbor = nb
    · rw [places_singleton_self ho, if_pos ⟨rfl, ho⟩]
    · rw [places_singleton_of_ne ho, if_neg fun h => ho h.2]
  · rw [Function.update_of_ne hx, if_neg fun h => hx h.1, List.append_nil]

/-- A place that is received at next has not been received at before. -/
theorem Sound.notMem_places (hs : Sound n programs) {ops rest : List Op} {o : Op}
    (hsplit : programs p = ops ++ o :: rest) (ho : o.transfer = .receive) (nb : Neighbor) :
    o.place ∉ places ops .receive nb := by
  intro hmem
  have hself : o.place ∈ places (o :: rest) .receive o.neighbor :=
    mem_places.2 ⟨o, List.mem_cons_self, ho, rfl, rfl⟩
  have hnodup := hs.nodup p
  rw [hsplit, places_append, places_append] at hnodup
  obtain ⟨habove, hbelow, hcross⟩ := List.nodup_append.1 hnodup
  cases nb <;> cases hnb : o.neighbor <;> rw [hnb] at hself
  · exact (List.nodup_append.1 habove).2.2 _ hmem _ hself rfl
  · exact hcross _ (List.mem_append_left _ hmem) _ (List.mem_append_right _ hself) rfl
  · exact hcross _ (List.mem_append_right _ hself) _ (List.mem_append_left _ hmem) rfl
  · exact (List.nodup_append.1 hbelow).2.2 _ hmem _ hself rfl

theorem Invariant.split_update (h : Invariant n programs orig done t) {o : Op} {rest : List Op}
    (htodo : t.todo p = o :: rest) (x : Nat) :
    programs x = Function.update done p (done p ++ [o]) x ++ Function.update t.todo p rest x := by
  have hsplit := h.split x
  by_cases hx : x = p
  · subst hx
    rw [Function.update_self, Function.update_self, List.append_assoc, hsplit, htodo]
    rfl
  · rw [Function.update_of_ne hx, Function.update_of_ne hx]
    exact hsplit

/-- An item that is sent comes last on its channel. -/
theorem Invariant.send (hs : Sound n programs) (h : Invariant n programs orig done t) {o : Op}
    {rest : List Op} {q : Nat} (hp : p < n) (htodo : t.todo p = o :: rest) (ho : o.transfer = .send)
    (hq : peer? n p o.neighbor = some q) (htodo' : u.todo = Function.update t.todo p rest)
    (hbuffer : u.buffer = t.buffer)
    (hinbox : ∀ q' nb, u.inbox q' nb = if q' = q ∧ nb = o.neighbor.opposite then
      t.inbox q' nb ++ [t.buffer p o.place] else t.inbox q' nb) :
    Invariant n programs orig (Function.update done p (done p ++ [o])) u := by
  have hreceive : ∀ x nb, places (Function.update done p (done p ++ [o]) x) .receive nb =
      places (done x) .receive nb := by
    intro x nb
    rw [places_update, if_neg (fun hall => by cases ho.symm.trans hall.2.1), List.append_nil]
  -- nothing has been received at the place
  have hvalue : t.buffer p o.place = orig p o.place := by
    refine h.kept p o.place fun nb hmem => ?_
    obtain ⟨o', ho', htransfer, -, hplace⟩ := mem_places.1 hmem
    have hsplit := h.split p
    refine hs.apart p o ?_ o' ?_ ho htransfer hplace.symm
    · rw [hsplit, htodo]
      exact List.mem_append_right _ List.mem_cons_self
    · rw [hsplit]
      exact List.mem_append_left _ ho'
  refine ⟨fun x => htodo' ▸ h.split_update htodo x, fun x a ha => ?_, fun x y nb hx hxy => ?_⟩
  · rw [hbuffer]
    exact h.kept x a fun nb => hreceive x nb ▸ ha nb
  · have hsame : (y = p ∧ o.transfer = .send ∧ o.neighbor = nb.opposite) ↔
        (x = q ∧ nb = o.neighbor.opposite) := by
      constructor
      · rintro ⟨rfl, -, hnb⟩
        have hback := (peer?_symm hx hxy).2
        rw [← hnb, hq] at hback
        exact ⟨(Option.some.inj hback).symm, by rw [hnb, Neighbor.opposite_opposite]⟩
      · rintro ⟨rfl, rfl⟩
        have hback := (peer?_symm hp hq).2
        rw [hxy] at hback
        exact ⟨Option.some.inj hback, ho, by rw [Neighbor.opposite_opposite]⟩
    rw [places_update, hreceive, hbuffer, hinbox, List.map_append, h.link x y nb hx hxy]
    by_cases hlink : x = q ∧ nb = o.neighbor.opposite
    · obtain ⟨rfl, -⟩ := hsame.2 hlink
      rw [if_pos (hsame.2 hlink), if_pos hlink, List.append_assoc, hvalue]
      rfl
    · rw [if_neg fun hall => hlink (hsame.1 hall), if_neg hlink, List.map_nil, List.append_nil]

/-- An item that is received comes first on its channel. -/
theorem Invariant.receive (hs : Sound n programs) (h : Invariant n programs orig done t) {o : Op}
    {rest : List Op} {v : α} (htodo : t.todo p = o :: rest) (ho : o.transfer = .receive)
    (htodo' : u.todo = Function.update t.todo p rest)
    (hbuffer : u.buffer = Function.update t.buffer p (Function.update (t.buffer p) o.place v))
    (hv : t.inbox p o.neighbor = v :: u.inbox p o.neighbor)
    (hinbox : ∀ q nb, ¬ (q = p ∧ nb = o.neighbor) → u.inbox q nb = t.inbox q nb) :
    Invariant n programs orig (Function.update done p (done p ++ [o])) u := by
  have hsplit := h.split p
  rw [htodo] at hsplit
  have hsend : ∀ x nb, places (Function.update done p (done p ++ [o]) x) .send nb =
      places (done x) .send nb := by
    intro x nb
    rw [places_update, if_neg (fun hall => by cases ho.symm.trans hall.2.1), List.append_nil]
  -- what has been received before stays where it is
  have hold : ∀ x nb, (places (done x) .receive nb).map (u.buffer x) =
      (places (done x) .receive nb).map (t.buffer x) := by
    intro x nb
    refine List.map_congr_left fun a ha => ?_
    rw [hbuffer]
    by_cases hx : x = p
    · subst hx
      rw [Function.update_self, Function.update_of_ne]
      rintro rfl
      exact hs.notMem_places hsplit ho nb ha
    · rw [Function.update_of_ne hx]
  refine ⟨fun x => htodo' ▸ h.split_update htodo x, fun x a ha => ?_, fun x y nb hx hxy => ?_⟩
  · simp only [places_update] at ha
    rw [hbuffer]
    by_cases hx : x = p
    · subst hx
      have hne : a ≠ o.place := by
        rintro rfl
        refine ha o.neighbor (List.mem_append_right _ ?_)
        rw [if_pos ⟨rfl, ho, rfl⟩]
        exact List.mem_singleton_self _
      rw [Function.update_self, Function.update_of_ne hne]
      exact h.kept x a fun nb hmem => ha nb (List.mem_append_left _ hmem)
    · rw [Function.update_of_ne hx]
      exact h.kept x a fun nb hmem => ha nb (List.mem_append_left _ hmem)
  · rw [hsend, places_update, List.map_append, hold, h.link x y nb hx hxy]
    by_cases hlink : x = p ∧ nb = o.neighbor
    · obtain ⟨rfl, rfl⟩ := hlink
      rw [if_pos ⟨rfl, ho, rfl⟩, hv, hbuffer]
      simp
    · rw [if_neg fun hall => hlink ⟨hall.1, hall.2.2.symm⟩, hinbox x nb hlink, List.map_nil,
        List.append_nil]

/-- A move does one more operation and keeps the channels in order. -/
theorem Invariant.move (hs : Sound n programs) (h : Invariant n programs orig done t)
    (hmove : t.move? n capacity p = some u) : ∃ done', Invariant n programs orig done' u := by
  obtain ⟨o, rest, htodo, hu, hcases⟩ := Transit.move?_cases hmove
  rcases hcases with ⟨ho, hbuffer, q, hq, -, hinbox⟩ | ⟨ho, v, hbuffer, hv, hinbox⟩
  · have hp : p < n := by
      by_contra hge
      have hsplit := h.split p
      rw [hs.inside p (by omega), htodo] at hsplit
      exact List.cons_ne_nil _ _ (List.append_eq_nil_iff.1 hsplit.symm).2
    exact ⟨_, h.send hs hp htodo ho hq hu hbuffer hinbox⟩
  · exact ⟨_, h.receive hs htodo ho hu hbuffer hv hinbox⟩

theorem Invariant.moves (hs : Sound n programs) (hmoves : Transit.Moves n capacity t u) :
    ∀ {done}, Invariant n programs orig done t → ∃ done', Invariant n programs orig done' u := by
  induction hmoves with
  | refl t => exact fun h => ⟨_, h⟩
  | step p hmove _ ih =>
    intro done h
    obtain ⟨done', h'⟩ := h.move hs hmove
    exact ih h'

end Keeping

end Exchange

end GridSweep
