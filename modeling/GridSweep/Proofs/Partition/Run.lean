import GridSweep.Proofs.Exchange.HaloRows
import GridSweep.Proofs.Partition.Band

/-!
# Runs of all partitions

All partitions do the sweeps of a schedule. Between two sweeps they exchange the halos of the buffer
that was written, word by word and in any interleaving. `Runs` has every way in which this can go on
until it is over or stops, and `Ends` says that all of them come to a good end.
-/

namespace GridSweep

/-- The rows in the buffers of every partition. -/
abbrev Buffers (α : Type) : Type := Nat → String → Nat → α

namespace Partition

open Exchange

variable {α β : Type} {plan : Plan} {n capacity w : Nat}

/-- One sweep by every partition. -/
def sweep (plan : Plan) (F : Int → List α → α) (n : Nat) (sw : Sweep) (s : Buffers α) :
    Except Stop (Buffers α) := do
  let bands ← (List.range n).mapM fun p => plan.sweepBand F p sw.skips (s p sw.reads)
  return fun p =>
    match bands[p]? with
    | some band => Function.update (s p) sw.writes (band.write (s p sw.writes))
    | none => s p

section Words

/-- The words of a buffer, row after row. -/
def words (hw : 0 < w) (s : Buffers (Fin w → β)) (name : String) (p a : Nat) : β :=
  s p name (a / w) ⟨a % w, Nat.mod_lt a hw⟩

/-- Replaces the words of a buffer. -/
def setWords (s : Buffers (Fin w → β)) (name : String) (ws : Nat → Nat → β) :
    Buffers (Fin w → β) :=
  fun p => Function.update (s p) name fun y c => ws p (y * w + c)

/-- How the sweeps of a list can go. -/
inductive Runs (hw : 0 < w) (plan : Plan) (F : Int → List (Fin w → β) → Fin w → β)
    (n capacity : Nat) (protocols : List (Option ExchangeProtocol)) :
    List Sweep → Buffers (Fin w → β) → Except Stop (Buffers (Fin w → β)) → Prop where
  | stop {sw : Sweep} {rest : List Sweep} {s : Buffers (Fin w → β)} {e : Stop} :
    sweep plan F n sw s = .error e → Runs hw plan F n capacity protocols (sw :: rest) s (.error e)
  | last {sw : Sweep} {s s' : Buffers (Fin w → β)} :
    sweep plan F n sw s = .ok s' → Runs hw plan F n capacity protocols [sw] s (.ok s')
  | deadlock {sw next : Sweep} {rest : List Sweep} {s s' : Buffers (Fin w → β)}
      {t : Transit β} :
    sweep plan F n sw s = .ok s' →
    Transit.Moves n capacity (.start (programs protocols) (words hw s' sw.writes)) t →
    (∃ p, t.todo p ≠ []) → (∀ p, t.move? n capacity p = none) →
    Runs hw plan F n capacity protocols (sw :: next :: rest) s (.error .deadlock)
  | next {sw next : Sweep} {rest : List Sweep} {s s' : Buffers (Fin w → β)}
      {t : Transit β} {out : Except Stop (Buffers (Fin w → β))} :
    sweep plan F n sw s = .ok s' →
    Transit.Moves n capacity (.start (programs protocols) (words hw s' sw.writes)) t →
    (∀ p, t.todo p = []) →
    Runs hw plan F n capacity protocols (next :: rest) (setWords s' sw.writes t.buffer) out →
    Runs hw plan F n capacity protocols (sw :: next :: rest) s out

/-- There is a run, and every run ends with `P`. -/
def Ends (hw : 0 < w) (plan : Plan) (F : Int → List (Fin w → β) → Fin w → β) (n capacity : Nat)
    (protocols : List (Option ExchangeProtocol)) (sweeps : List Sweep) (s : Buffers (Fin w → β))
    (P : Buffers (Fin w → β) → Prop) : Prop :=
  (∃ out, Runs hw plan F n capacity protocols sweeps s out) ∧
    ∀ out, Runs hw plan F n capacity protocols sweeps s out → ∃ final, out = .ok final ∧ P final

section Ends

variable {hw : 0 < w} {F : Int → List (Fin w → β) → Fin w → β}
  {protocols : List (Option ExchangeProtocol)} {sw nxt : Sweep} {rest : List Sweep}
  {s s' : Buffers (Fin w → β)} {P : Buffers (Fin w → β) → Prop}

theorem Ends.mono {sweeps : List Sweep} {Q : Buffers (Fin w → β) → Prop}
    (h : Ends hw plan F n capacity protocols sweeps s P) (himp : ∀ final, P final → Q final) :
    Ends hw plan F n capacity protocols sweeps s Q := by
  refine ⟨h.1, fun out hout => ?_⟩
  obtain ⟨final, rfl, hP⟩ := h.2 out hout
  exact ⟨final, rfl, himp final hP⟩

theorem Ends.last (hsweep : sweep plan F n sw s = .ok s') (hP : P s') :
    Ends hw plan F n capacity protocols [sw] s P := by
  refine ⟨⟨_, .last hsweep⟩, fun out hout => ?_⟩
  cases hout with
  | stop h => cases hsweep.symm.trans h
  | last h =>
    cases hsweep.symm.trans h
    exact ⟨s', rfl, hP⟩

/-- The exchange after a sweep does not get stuck, and the sweeps after it end well. -/
theorem Ends.next (hcap : 0 < capacity) (hhalos : HalosFit plan n)
    (hprograms : programs protocols = chainProgram plan w n)
    (hsweep : sweep plan F n sw s = .ok s')
    (hrest : ∀ ws, Refreshed plan w n (words hw s' sw.writes) ws →
      Ends hw plan F n capacity protocols (nxt :: rest) (setWords s' sw.writes ws) P) :
    Ends hw plan F n capacity protocols (sw :: nxt :: rest) s P := by
  constructor
  · obtain ⟨t, hmoves, hend⟩ := exists_moves hhalos hcap (words hw s' sw.writes)
    obtain ⟨⟨out, hout⟩, -⟩ := hrest _ (refreshed_of_moves hhalos hmoves hend)
    exact ⟨out, .next hsweep (hprograms ▸ hmoves) hend hout⟩
  intro out hout
  cases hout with
  | stop h => cases hsweep.symm.trans h
  | deadlock h hmoves hleft hstuck =>
    cases hsweep.symm.trans h
    obtain ⟨p, u, hu⟩ := exists_move_of_moves hhalos hcap (hprograms ▸ hmoves) hleft
    cases (hstuck p).symm.trans hu
  | next h hmoves hend hout =>
    cases hsweep.symm.trans h
    exact (hrest _ (refreshed_of_moves hhalos (hprograms ▸ hmoves) hend)).2 out hout

end Ends

end Words

end Partition

end GridSweep
