import GridSweep.Ordered
import Mathlib.Algebra.Order.Group.Int
import Mathlib.Data.String.Basic

/-!
# Maps with ascending keys

`Ascending` is the order in which maps keep their keys. Altering a map keeps it, and looking a key
up finds the value that stands beside it. For maps of sets, `Ordered.Has` says what is in them.
-/

namespace GridSweep

section

variable {α β : Type} [LinearOrder α] {m : List (α × β)} {k : α}

/-- The keys of a map ascend. -/
def Ascending (m : List (α × β)) : Prop := m.Pairwise fun p q => p.1 < q.1

instance (m : List (α × β)) : Decidable (Ascending m) :=
  inferInstanceAs (Decidable (m.Pairwise fun p q => p.1 < q.1))

theorem Ascending.get? (h : Ascending m) {b : β} (hm : (k, b) ∈ m) : Ordered.get? k m = some b := by
  induction m with
  | nil => cases hm
  | cons p m ih =>
    obtain ⟨hlt, hrest⟩ := List.pairwise_cons.1 h
    rcases List.mem_cons.1 hm with rfl | hmem
    · simp [Ordered.get?]
    · obtain ⟨x, c⟩ := p
      have hne : k ≠ x := ne_of_gt (hlt (k, b) hmem)
      simpa [Ordered.get?, List.lookup_cons, beq_eq_false_iff_ne.2 hne] using ih hrest hmem

theorem mem_of_get? {b : β} (h : Ordered.get? k m = some b) : (k, b) ∈ m := by
  induction m with
  | nil => simp [Ordered.get?] at h
  | cons p m ih =>
    obtain ⟨x, c⟩ := p
    simp only [Ordered.get?, List.lookup_cons] at h
    split at h
    · next heq =>
      rw [beq_iff_eq] at heq
      cases h
      simp [heq]
    · exact List.mem_cons_of_mem _ (ih h)

theorem Ascending.map {γ : Type} (h : Ascending m) (f : β → γ) :
    Ascending (m.map fun p => (p.1, f p.2)) :=
  List.pairwise_map.2 h

theorem Ascending.nodup_keys (h : Ascending m) : (m.map (·.1)).Nodup :=
  List.pairwise_map.2 (List.Pairwise.imp ne_of_lt h)

/-- An altered map has no key besides its own and the new one. -/
theorem key_of_mem_alter {f : Option β → β} {q : α × β} (hq : q ∈ Ordered.alter k f m) :
    q.1 = k ∨ ∃ q' ∈ m, q'.1 = q.1 := by
  induction m with
  | nil => simp_all [Ordered.alter]
  | cons p m ih =>
    simp only [Ordered.alter] at hq
    split at hq
    · rcases List.mem_cons.1 hq with rfl | hq
      · exact .inl rfl
      · exact .inr ⟨q, hq, rfl⟩
    · split at hq
      · rcases List.mem_cons.1 hq with rfl | hq
        · exact .inr ⟨p, List.mem_cons_self, rfl⟩
        · exact .inr ⟨q, List.mem_cons_of_mem _ hq, rfl⟩
      · rcases List.mem_cons.1 hq with rfl | hq
        · exact .inr ⟨_, List.mem_cons_self, rfl⟩
        · rcases ih hq with h | ⟨q', hq', heq⟩
          · exact .inl h
          · exact .inr ⟨q', List.mem_cons_of_mem _ hq', heq⟩

theorem ascending_alter (h : Ascending m) (k : α) (f : Option β → β) :
    Ascending (Ordered.alter k f m) := by
  induction m with
  | nil => simp [Ordered.alter, Ascending]
  | cons p m ih =>
    obtain ⟨hlt, hrest⟩ := List.pairwise_cons.1 h
    simp only [Ordered.alter]
    split
    · next hk =>
      refine List.pairwise_cons.2 ⟨fun q hq => ?_, h⟩
      rcases List.mem_cons.1 hq with rfl | hq
      · exact hk
      · exact lt_trans hk (hlt q hq)
    · split
      · exact List.pairwise_cons.2 ⟨hlt, hrest⟩
      · next hk hne =>
        refine List.pairwise_cons.2 ⟨fun q hq => ?_, ih hrest⟩
        rcases key_of_mem_alter hq with hq | ⟨q', hq', heq⟩
        · exact hq ▸ lt_of_le_of_ne (not_lt.1 hk) (Ne.symm hne)
        · rw [← heq]
          exact hlt q' hq'

theorem get?_put_self (k : α) (b : β) (m : List (α × β)) :
    Ordered.get? k (Ordered.put k b m) = some b := by
  unfold Ordered.put
  induction m with
  | nil => simp [Ordered.alter, Ordered.get?]
  | cons p m ih =>
    obtain ⟨x, c⟩ := p
    simp only [Ordered.alter]
    split
    · simp [Ordered.get?]
    · split
      · next heq => simp [Ordered.get?, heq]
      · next hne => simpa [Ordered.get?, List.lookup_cons, beq_eq_false_iff_ne.2 hne] using ih

theorem get?_put_of_ne {k' : α} (h : k' ≠ k) (b : β) (m : List (α × β)) :
    Ordered.get? k' (Ordered.put k b m) = Ordered.get? k' m := by
  unfold Ordered.put
  induction m with
  | nil => simp [Ordered.alter, Ordered.get?, List.lookup_cons, beq_eq_false_iff_ne.2 h]
  | cons p m ih =>
    obtain ⟨x, c⟩ := p
    simp only [Ordered.alter]
    split
    · simp [Ordered.get?, List.lookup_cons, beq_eq_false_iff_ne.2 h]
    · split
      · next heq =>
        subst heq
        simp [Ordered.get?, List.lookup_cons, beq_eq_false_iff_ne.2 h]
      · simp only [Ordered.get?, List.lookup_cons] at ih ⊢
        split
        · rfl
        · exact ih

/-- What holds of all values and of the altered one holds after the change. -/
theorem forall_mem_alter {P : β → Prop} {f : Option β → β} (hnone : P (f none))
    (hsome : ∀ b, P b → P (f (some b))) (h : ∀ p ∈ m, P p.2) :
    ∀ p ∈ Ordered.alter k f m, P p.2 := by
  induction m with
  | nil =>
    intro p hp
    rw [List.mem_singleton.1 hp]
    exact hnone
  | cons q m ih =>
    obtain ⟨hq, hm⟩ := List.forall_mem_cons.1 h
    simp only [Ordered.alter]
    split
    · exact List.forall_mem_cons.2 ⟨hnone, h⟩
    · split
      · exact List.forall_mem_cons.2 ⟨hsome _ hq, hm⟩
      · exact List.forall_mem_cons.2 ⟨hq, ih hm⟩

end

/-! ## Maps of sets -/

/-- Sets stay in order, whichever way elements are compared. -/
theorem pairwise_insert {α : Type} [LinearOrder α] [DecidableLT α] [DecidableEq α] {s : List α}
    (h : s.Pairwise (· < ·)) (a : α) : (Ordered.insert a s).Pairwise (· < ·) := by
  induction s with
  | nil => simp [Ordered.insert]
  | cons b s ih =>
    obtain ⟨hb, hs⟩ := List.pairwise_cons.1 h
    simp only [Ordered.insert]
    split
    · next hlt =>
      refine List.pairwise_cons.2 ⟨fun c hc => ?_, h⟩
      rcases List.mem_cons.1 hc with rfl | hc
      · exact hlt
      · exact lt_trans hlt (hb c hc)
    · split
      · exact h
      · next hnlt hne =>
        refine List.pairwise_cons.2 ⟨fun c hc => ?_, ih hs⟩
        rcases Ordered.mem_insert.1 hc with rfl | hc
        · exact lt_of_le_of_ne (not_lt.1 hnlt) (Ne.symm hne)
        · exact hb c hc

theorem pairwise_ofList {α : Type} [LinearOrder α] [DecidableLT α] [DecidableEq α] (as : List α) :
    (Ordered.ofList as).Pairwise (· < ·) := by
  suffices h : ∀ s : List α, s.Pairwise (· < ·) →
      (as.foldl (fun s a => Ordered.insert a s) s).Pairwise (· < ·) from h [] List.Pairwise.nil
  induction as with
  | nil => exact fun s hs => hs
  | cons a as ih => exact fun s hs => ih _ (pairwise_insert hs a)

section

variable {α β : Type} {m : List (α × List β)} {k a : α} {x b : β}

/-- A map of sets has an element at a key. -/
def Ordered.Has (m : List (α × List β)) (a : α) (b : β) : Prop := ∃ bs, (a, bs) ∈ m ∧ b ∈ bs

theorem has_cons {bs : List β} :
    Ordered.Has ((k, bs) :: m) a b ↔ (a = k ∧ b ∈ bs) ∨ Ordered.Has m a b := by
  constructor
  · rintro ⟨cs, hm, hb⟩
    rcases List.mem_cons.1 hm with heq | hm
    · cases heq
      exact .inl ⟨rfl, hb⟩
    · exact .inr ⟨cs, hm, hb⟩
  · rintro (⟨rfl, hb⟩ | ⟨cs, hm, hb⟩)
    · exact ⟨bs, List.mem_cons_self, hb⟩
    · exact ⟨cs, List.mem_cons_of_mem _ hm, hb⟩

variable [LT α] [DecidableLT α] [DecidableEq α] [LT β] [DecidableLT β] [DecidableEq β]

/-- Inserting into the set at a key adds one element. -/
theorem has_alter_insert :
    Ordered.Has (Ordered.alter k (fun bs => Ordered.insert x (bs.getD [])) m) a b ↔
      (a = k ∧ b = x) ∨ Ordered.Has m a b := by
  induction m with
  | nil => simp [Ordered.alter, Ordered.insert, Ordered.Has]
  | cons p m ih =>
    obtain ⟨c, bs⟩ := p
    simp only [Ordered.alter]
    split
    · simp [has_cons, Ordered.insert]
    · split
      · next heq =>
        subst heq
        simp only [has_cons, Option.getD_some, Ordered.mem_insert]
        tauto
      · rw [has_cons, ih, has_cons]
        tauto

end

end GridSweep
