import GridSweep.Proofs.Machine.Basic
import Mathlib.Data.List.Forall2

/-!
# Outcomes of runs

Chains of steps that may fail are taken apart with `bind_eq_ok` and `mapM_eq_ok_iff`.
`Outcome short P x` says that a run `x` of the machine ends in a state with `P`. When `short` holds
it may also stop because a channel has run out of words; it never stops because of a queue. A run
over enough words is the case `short := False`.
-/

namespace GridSweep

section Chains

variable {ε α β : Type}

theorem bind_eq_ok {x : Except ε α} {f : α → Except ε β} {b : β} :
    x >>= f = .ok b ↔ ∃ a, x = .ok a ∧ f a = .ok b := by
  cases x <;> simp [bind, Except.bind]

/-- A check in front of the rest. -/
theorem andThen_eq_ok {x : Except ε Unit} {f : Unit → Except ε β} {b : β} :
    x >>= f = .ok b ↔ x = .ok () ∧ f () = .ok b := by
  rw [bind_eq_ok]
  exact ⟨fun ⟨_, h⟩ => h, fun h => ⟨(), h⟩⟩

@[simp] theorem ok_bind (a : α) (f : α → Except ε β) : Except.ok a >>= f = f a := rfl

@[simp] theorem error_bind (e : ε) (f : α → Except ε β) :
    (Except.error e : Except ε α) >>= f = .error e := rfl

@[simp] theorem pure_eq_ok (a : α) : (pure a : Except ε α) = .ok a := rfl

theorem exists_right_of_forall₂ {R : α → β → Prop} {xs : List α} {ys : List β}
    (h : List.Forall₂ R xs ys) {x : α} (hx : x ∈ xs) : ∃ y ∈ ys, R x y := by
  induction h with
  | nil => cases hx
  | @cons a b _ _ hab _ ih =>
    rcases List.mem_cons.1 hx with rfl | hx
    · exact ⟨b, List.mem_cons_self, hab⟩
    · obtain ⟨y, hy, hxy⟩ := ih hx
      exact ⟨y, List.mem_cons_of_mem _ hy, hxy⟩

theorem exists_left_of_forall₂ {R : α → β → Prop} {xs : List α} {ys : List β}
    (h : List.Forall₂ R xs ys) {y : β} (hy : y ∈ ys) : ∃ x ∈ xs, R x y :=
  exists_right_of_forall₂ (R := flip R) (List.Forall₂.flip h) hy

theorem mapM_eq_ok_iff {f : α → Except ε β} {xs : List α} {ys : List β} :
    xs.mapM f = .ok ys ↔ List.Forall₂ (fun x y => f x = .ok y) xs ys := by
  induction xs generalizing ys with
  | nil => cases ys <;> simp
  | cons x xs ih =>
    simp only [List.mapM_cons, bind_eq_ok, ih, pure_eq_ok, Except.ok.injEq]
    constructor
    · rintro ⟨y, hy, ys', hys, rfl⟩
      exact .cons hy hys
    · intro h
      cases h with
      | cons hy hys => exact ⟨_, hy, _, hys, rfl⟩

theorem mapM_eq_ok_map {f : α → Except ε β} {g : α → β} {xs : List α}
    (h : ∀ x ∈ xs, f x = .ok (g x)) : xs.mapM f = .ok (xs.map g) := by
  rw [mapM_eq_ok_iff, List.forall₂_map_right_iff, List.forall₂_same]
  exact h

/-- A loop whose steps have known results, if any. -/
theorem eq_map_of_mapM {f : α → Except ε β} {g : α → β} {xs : List α} {ys : List β}
    (h : ∀ x y, f x = .ok y → y = g x) (hm : xs.mapM f = .ok ys) : ys = xs.map g := by
  rw [← List.forall₂_eq_eq_eq, List.forall₂_map_right_iff]
  exact (mapM_eq_ok_iff.1 hm).flip.imp fun y x hxy => h x y hxy

theorem foldlM_range_succ (f : β → Nat → Except ε β) (n : Nat) (b : β) :
    (List.range (n + 1)).foldlM f b = (List.range n).foldlM f b >>= fun b => f b n := by
  rw [List.range_succ, List.foldlM_append]
  simp only [List.foldlM_cons, List.foldlM_nil, bind_pure]

theorem foldlM_preserves {f : β → α → Except ε β} {P : β → Prop}
    (h : ∀ b a b', P b → f b a = .ok b' → P b') {as : List α} {b b' : β} (hb : P b)
    (hrun : as.foldlM f b = .ok b') : P b' := by
  induction as generalizing b with
  | nil =>
    cases hrun
    exact hb
  | cons a as ih =>
    rw [List.foldlM_cons] at hrun
    obtain ⟨b₁, h₁, hrun⟩ := bind_eq_ok.1 hrun
    exact ih (h b a b₁ hb h₁) hrun

/-- A loop whose steps fail or not whatever came before. -/
theorem foldlM_eq_ok_iff {f : β → α → Except ε β} {g : β → α → β} {P : α → Prop}
    (h : ∀ b a b', f b a = .ok b' ↔ P a ∧ b' = g b a) {as : List α} {b b' : β} :
    as.foldlM f b = .ok b' ↔ (∀ a ∈ as, P a) ∧ b' = as.foldl g b := by
  induction as generalizing b with
  | nil => simp [eq_comm]
  | cons a as ih =>
    simp only [List.foldlM_cons, bind_eq_ok, h, ih, List.forall_mem_cons, List.foldl_cons]
    constructor
    · rintro ⟨_, ⟨ha, rfl⟩, has, rfl⟩
      exact ⟨⟨ha, has⟩, rfl⟩
    · rintro ⟨⟨ha, has⟩, rfl⟩
      exact ⟨_, ⟨ha, rfl⟩, has, rfl⟩

/-- Two loops whose steps agree, unless the first stops with an error from `E`. -/
theorem foldlM_eq_or_error {f g : β → α → Except ε β} {E : ε → Prop} {as : List α}
    (h : ∀ a ∈ as, ∀ b, f b a = g b a ∨ ∃ e, E e ∧ f b a = .error e) (b : β) :
    as.foldlM f b = as.foldlM g b ∨ ∃ e, E e ∧ as.foldlM f b = .error e := by
  induction as generalizing b with
  | nil => exact .inl rfl
  | cons a as ih =>
    rw [List.foldlM_cons, List.foldlM_cons]
    obtain ⟨ha, has⟩ := List.forall_mem_cons.1 h
    obtain hstep | ⟨e, he, hstep⟩ := ha b
    · rw [hstep]
      cases g b a with
      | ok b => exact ih has b
      | error e => exact .inl rfl
    · exact .inr ⟨e, he, by rw [hstep, error_bind]⟩

end Chains

/-- A run ends with `P`, or stops for want of words if `short`. -/
def Outcome {α : Type} (short : Prop) (P : α → Prop) : Except Fault α → Prop
  | .ok a => P a
  | .error (.emptyChannel _) => short
  | .error _ => False

namespace Outcome

variable {α β : Type} {short : Prop} {P Q : α → Prop}

@[simp] theorem ok_iff {a : α} : Outcome short P (.ok a) ↔ P a := Iff.rfl

theorem bind {x : Except Fault α} {f : α → Except Fault β} {R : β → Prop}
    (hx : Outcome short P x) (hf : ∀ a, P a → Outcome short R (f a)) :
    Outcome short R (x >>= f) := by
  cases x with
  | ok a => exact hf a hx
  | error e => cases e <;> exact hx

theorem mono {x : Except Fault α} (hx : Outcome short P x) (h : ∀ a, P a → Q a) :
    Outcome short Q x := by
  cases x with
  | ok a => exact h a hx
  | error e => cases e <;> exact hx

/-- A run over enough words succeeds. -/
theorem exists_ok {x : Except Fault α} (hx : Outcome False P x) : ∃ a, x = .ok a ∧ P a := by
  cases x with
  | ok a => exact ⟨a, rfl, hx⟩
  | error e => cases e <;> exact hx.elim

/-- A run with an outcome does not stop because of a queue. -/
theorem not_ofQueue {x : Except Fault α} (hx : Outcome short P x) {e : Fault}
    (h : x = .error e) : e.ofQueue = false := by
  subst h
  cases e
  · exact hx.elim
  · exact hx.elim
  · rfl

/-- What every step preserves, counting the steps, holds after all of them. -/
theorem foldlM_range {f : α → Nat → Except Fault α} (Inv : Nat → α → Prop) {a : α} {n : Nat}
    (h0 : Inv 0 a) (hstep : ∀ i, i < n → ∀ a, Inv i a → Outcome short (Inv (i + 1)) (f a i)) :
    Outcome short (Inv n) ((List.range n).foldlM f a) := by
  induction n with
  | zero => exact h0
  | succ n ih =>
    rw [foldlM_range_succ]
    exact (ih fun i hi => hstep i (by omega)).bind fun a ha => hstep n (by omega) a ha

end Outcome

end GridSweep
