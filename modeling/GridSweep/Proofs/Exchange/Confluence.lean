import GridSweep.Proofs.Exchange.Interleaving
import Mathlib.Logic.Relation

/-!
# The order of moves

Every channel has one sender and one receiver. A move of one partition can make room or bring an
item for another one, but never takes either away, so moves of different partitions commute. All
interleavings of an exchange that cannot go on have therefore ended in the same state
(`Moves.to_stuck`), and it is enough to look at one of them.
-/

namespace GridSweep.Exchange

/-- A partition is the neighbour of only one other on each side. -/
theorem peer?_inj {n p p' q : Nat} {nb : Neighbor} (h : peer? n p nb = some q)
    (h' : peer? n p' nb = some q) : p = p' := by
  cases nb <;> simp only [peer?, Option.ite_none_right_eq_some, Option.some.injEq] at h h' <;> omega

/-! ## Operations on a channel -/

namespace Op

variable {α : Type} {o o' : Op} {n p q capacity : Nat} {c : Nat × Neighbor} {items : List α}

/-- The channel of an operation, as the partition at its end and the neighbour it comes from. -/
def channel? (n p : Nat) (o : Op) : Option (Nat × Neighbor) :=
  match o.transfer with
  | .send => (peer? n p o.neighbor).map (·, o.neighbor.opposite)
  | .receive => some (p, o.neighbor)

/-- An operation does not have to wait. -/
def Ready (o : Op) (capacity : Nat) (items : List α) : Prop :=
  match o.transfer with
  | .send => items.length < capacity
  | .receive => items ≠ []

/-- The channel after the operation, if `item` is what would be sent. -/
def pass (o : Op) (item : α) (items : List α) : List α :=
  match o.transfer with
  | .send => items ++ [item]
  | .receive => items.tail

/-- The buffer after the operation. -/
def keep (o : Op) (items : List α) (buffer : Nat → α) : Nat → α :=
  match o.transfer, items with
  | .receive, v :: _ => Function.update buffer o.place v
  | _, _ => buffer

/-- Two partitions use a channel in different directions. -/
theorem transfer_ne (hne : p ≠ q) (hp : o.channel? n p = some c) (hq : o'.channel? n q = some c) :
    o.transfer ≠ o'.transfer := by
  intro htransfer
  unfold channel? at hp hq
  rw [← htransfer] at hq
  cases ht : o.transfer with
  | send =>
    simp only [ht, Option.map_eq_some_iff] at hp hq
    obtain ⟨r, hr, rfl⟩ := hp
    obtain ⟨r', hr', heq⟩ := hq
    obtain ⟨rfl, hnb⟩ := Prod.mk.inj heq
    have hsame : o'.neighbor = o.neighbor := by
      rw [← o.neighbor.opposite_opposite, ← hnb, Neighbor.opposite_opposite]
    exact hne (peer?_inj hr (hsame ▸ hr'))
  | receive =>
    simp only [ht, Option.some.injEq] at hp hq
    exact hne (congrArg Prod.fst (hp.trans hq.symm))

theorem transfer_cases (hne : o.transfer ≠ o'.transfer) :
    (o.transfer = .send ∧ o'.transfer = .receive) ∨
      (o.transfer = .receive ∧ o'.transfer = .send) := by
  cases ht : o.transfer <;> cases ht' : o'.transfer <;> simp_all

/-- The other end of a channel does not get in the way. -/
theorem Ready.pass (hne : o.transfer ≠ o'.transfer) (h : o'.Ready capacity items) (item : α) :
    o'.Ready capacity (o.pass item items) := by
  unfold Ready at h ⊢
  unfold Op.pass
  rcases transfer_cases hne with ⟨ht, ht'⟩ | ⟨ht, ht'⟩ <;> simp only [ht, ht'] at h ⊢
  · simp
  · rw [List.length_tail]
    omega

theorem pass_comm (hne : o.transfer ≠ o'.transfer) (h : o.Ready capacity items)
    (h' : o'.Ready capacity items) (item item' : α) :
    o'.pass item' (o.pass item items) = o.pass item (o'.pass item' items) := by
  unfold Ready at h h'
  unfold Op.pass
  rcases transfer_cases hne with ⟨ht, ht'⟩ | ⟨ht, ht'⟩ <;> simp only [ht, ht'] at h h' ⊢
  · exact List.tail_append_of_ne_nil h'
  · exact (List.tail_append_of_ne_nil h).symm

/-- What is received does not depend on what is sent after it. -/
theorem keep_pass (hne : o.transfer ≠ o'.transfer) (h' : o'.Ready capacity items) (item : α)
    (buffer : Nat → α) : o'.keep (o.pass item items) buffer = o'.keep items buffer := by
  unfold Ready at h'
  unfold keep Op.pass
  rcases transfer_cases hne with ⟨ht, ht'⟩ | ⟨ht, ht'⟩ <;> simp only [ht, ht'] at h' ⊢
  obtain ⟨v, vs, rfl⟩ := List.exists_cons_of_ne_nil h'
  rfl

end Op

/-! ## Moves that commute -/

namespace Transit

attribute [ext] Transit

variable {α : Type} {n capacity p q : Nat} {t u v : Transit α} {o o' : Op} {rest rest' : List Op}
  {c c' : Nat × Neighbor}

/-- The state after partition `p` has done `o` on channel `c`. -/
def moved (t : Transit α) (p : Nat) (o : Op) (rest : List Op) (c : Nat × Neighbor) : Transit α :=
  { t.setInbox c.1 c.2 (o.pass (t.buffer p o.place) (t.inbox c.1 c.2)) with
    todo := Function.update t.todo p rest
    buffer := Function.update t.buffer p (o.keep (t.inbox c.1 c.2) (t.buffer p)) }

theorem moved_inbox (q : Nat) (nb : Neighbor) : (t.moved p o rest c).inbox q nb =
    if (q, nb) = c then o.pass (t.buffer p o.place) (t.inbox q nb) else t.inbox q nb := by
  refine (setInbox_inbox ..).trans ?_
  by_cases hc : (q, nb) = c
  · subst hc
    rw [if_pos ⟨rfl, rfl⟩, if_pos rfl]
  · rw [if_neg hc, if_neg fun h => hc (Prod.ext h.1 h.2)]

@[simp] theorem moved_todo : (t.moved p o rest c).todo = Function.update t.todo p rest := rfl

@[simp] theorem moved_buffer : (t.moved p o rest c).buffer =
    Function.update t.buffer p (o.keep (t.inbox c.1 c.2) (t.buffer p)) := rfl

/-- A partition moves exactly if its next operation has a channel that it does not have to wait
for. -/
theorem move?_eq_some_iff : t.move? n capacity p = some u ↔
    ∃ o rest c, t.todo p = o :: rest ∧ o.channel? n p = some c ∧
      o.Ready capacity (t.inbox c.1 c.2) ∧ u = t.moved p o rest c := by
  constructor
  · intro h
    obtain ⟨o, rest, htodo, hu, hcases⟩ := move?_cases h
    refine ⟨o, rest, ?_⟩
    rcases hcases with ⟨ht, hbuffer, q, hq, hroom, hinbox⟩ | ⟨ht, v, hbuffer, hv, hinbox⟩
    · refine ⟨(q, o.neighbor.opposite), htodo, ?_, ?_, Transit.ext hu ?_ ?_⟩
      · simp [Op.channel?, ht, hq]
      · simpa [Op.Ready, ht] using hroom
      · simp [hbuffer, Op.keep, ht]
      · funext x nb
        simp [hinbox, moved_inbox, Op.pass, ht]
    · refine ⟨(p, o.neighbor), htodo, ?_, ?_, Transit.ext hu ?_ ?_⟩
      · simp [Op.channel?, ht]
      · simp [Op.Ready, ht, hv]
      · simp [hbuffer, Op.keep, ht, hv]
      · funext x nb
        rw [moved_inbox]
        split
        · next heq =>
          cases heq
          simp [Op.pass, ht, hv]
        · next hne => exact hinbox x nb fun h => hne (Prod.ext h.1 h.2)
  · rintro ⟨o, rest, c, htodo, hc, hready, rfl⟩
    unfold move? Op.channel? Op.Ready at *
    rw [htodo]
    cases ht : o.transfer with
    | send =>
      simp only [ht, Option.map_eq_some_iff] at hc hready
      obtain ⟨q, hq, rfl⟩ := hc
      simp only [hq, Option.bind_eq_bind, Option.bind_some, if_pos hready]
      simp [moved, setInbox, Op.pass, Op.keep, ht]
    | receive =>
      simp only [ht, Option.some.injEq] at hc hready
      subst hc
      obtain ⟨v, items, hv⟩ := List.exists_cons_of_ne_nil hready
      simp [moved, setInbox, Op.pass, Op.keep, ht, hv]

/-- A partition that does not have to wait can still move after another one. -/
theorem ready_moved (hne : p ≠ q) (hp : o.channel? n p = some c) (hq : o'.channel? n q = some c')
    (hready : o'.Ready capacity (t.inbox c'.1 c'.2)) :
    o'.Ready capacity ((t.moved p o rest c).inbox c'.1 c'.2) := by
  rw [moved_inbox]
  split
  · next heq =>
    subst heq
    exact hready.pass (Op.transfer_ne hne hp hq) _
  · exact hready

theorem keep_moved (hne : p ≠ q) (hp : o.channel? n p = some c) (hq : o'.channel? n q = some c')
    (hready : o'.Ready capacity (t.inbox c'.1 c'.2)) (buffer : Nat → α) :
    o'.keep ((t.moved p o rest c).inbox c'.1 c'.2) buffer =
      o'.keep (t.inbox c'.1 c'.2) buffer := by
  rw [moved_inbox]
  split
  · next heq =>
    subst heq
    exact Op.keep_pass (Op.transfer_ne hne hp hq) hready _ _
  · rfl

/-- Operations of different partitions commute. -/
theorem moved_comm (hne : p ≠ q) (hp : o.channel? n p = some c) (hq : o'.channel? n q = some c')
    (hready : o.Ready capacity (t.inbox c.1 c.2))
    (hready' : o'.Ready capacity (t.inbox c'.1 c'.2)) :
    (t.moved p o rest c).moved q o' rest' c' = (t.moved q o' rest' c').moved p o rest c := by
  apply Transit.ext
  · exact Function.update_comm hne ..
  · simp only [moved_buffer, Function.update_of_ne hne, Function.update_of_ne hne.symm,
      keep_moved hne hp hq hready', keep_moved hne.symm hq hp hready]
    exact Function.update_comm hne ..
  · funext x nb
    simp only [moved_inbox, moved_buffer, Function.update_of_ne hne, Function.update_of_ne hne.symm]
    by_cases hc : (x, nb) = c <;> by_cases hc' : (x, nb) = c'
    · subst hc
      subst hc'
      simp only [if_true]
      exact Op.pass_comm (Op.transfer_ne hne hp hq) hready hready' _ _
    · rw [if_neg hc', if_pos hc, if_pos hc, if_neg hc']
    · rw [if_pos hc', if_neg hc, if_neg hc, if_pos hc']
    · rw [if_neg hc', if_neg hc, if_neg hc, if_neg hc']

/-- Moves of different partitions can be made in either order. -/
theorem move?_diamond (hne : p ≠ q) (hu : t.move? n capacity p = some u)
    (hv : t.move? n capacity q = some v) :
    ∃ w, u.move? n capacity q = some w ∧ v.move? n capacity p = some w := by
  obtain ⟨o, rest, c, htodo, hp, hready, rfl⟩ := move?_eq_some_iff.1 hu
  obtain ⟨o', rest', c', htodo', hq, hready', rfl⟩ := move?_eq_some_iff.1 hv
  refine ⟨(t.moved p o rest c).moved q o' rest' c', ?_, ?_⟩
  · apply move?_eq_some_iff.2
    refine ⟨o', rest', c', ?_, hq, ready_moved hne hp hq hready', rfl⟩
    rw [moved_todo, Function.update_of_ne hne.symm, htodo']
  · apply move?_eq_some_iff.2
    refine ⟨o, rest, c, ?_, hp, ready_moved hne.symm hq hp hready,
      moved_comm hne hp hq hready hready'⟩
    rw [moved_todo, Function.update_of_ne hne, htodo]

/-! ## Standstill -/

/-- Some partition makes a move. -/
def Step (n capacity : Nat) (t u : Transit α) : Prop := ∃ p, t.move? n capacity p = some u

/-- No partition can move. -/
def Stuck (n capacity : Nat) (t : Transit α) : Prop := ∀ p, t.move? n capacity p = none

theorem moves_iff : Moves n capacity t u ↔ Relation.ReflTransGen (Step n capacity) t u := by
  constructor
  · intro h
    induction h with
    | refl t => exact .refl
    | step p hmove _ ih => exact .head ⟨p, hmove⟩ ih
  · intro h
    induction h using Relation.ReflTransGen.head_induction_on with
    | refl => exact .refl _
    | head hstep _ ih =>
      obtain ⟨p, hmove⟩ := hstep
      exact .step p hmove ih

theorem Moves.trans (h : Moves n capacity t u) (h' : Moves n capacity u v) :
    Moves n capacity t v := moves_iff.2 ((moves_iff.1 h).trans (moves_iff.1 h'))

/-- Interleavings that have gone different ways can be brought together again. -/
theorem Moves.join (h : Moves n capacity t u) (h' : Moves n capacity t v) :
    ∃ w, Moves n capacity u w ∧ Moves n capacity v w := by
  have hdiamond : ∀ t u v : Transit α, Step n capacity t u → Step n capacity t v →
      ∃ w, Relation.ReflGen (Step n capacity) u w ∧
        Relation.ReflTransGen (Step n capacity) v w := by
    rintro t u v ⟨p, hu⟩ ⟨q, hv⟩
    by_cases hpq : p = q
    · subst hpq
      cases hu.symm.trans hv
      exact ⟨u, .refl, .refl⟩
    · obtain ⟨w, hq, hp⟩ := move?_diamond hpq hu hv
      exact ⟨w, .single ⟨q, hq⟩, .single ⟨p, hp⟩⟩
  obtain ⟨w, hu, hv⟩ := Relation.church_rosser hdiamond (moves_iff.1 h) (moves_iff.1 h')
  exact ⟨w, moves_iff.2 hu, moves_iff.2 hv⟩

end Transit

end GridSweep.Exchange
