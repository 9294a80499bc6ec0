import GridSweep.Proofs.Ordered
import GridSweep.Proofs.Outcome
import GridSweep.Stencil.Analysis

/-!
# Well-formed stencils

What the generator relies on: there are inputs, they have different names, the output is none of
them, and the footprint is a map. Every analysed program has such a stencil.
-/

namespace GridSweep

/-- What analysis promises of a stencil. -/
structure Stencil.WellFormed (s : Stencil) : Prop where
  inputs_ne : s.inputVars ≠ []
  inputs_nodup : s.inputVars.Nodup
  output_new : s.outputVar ∉ s.inputVars
  refs_ascending : Ascending s.refs

theorem foldl_preserves {α β : Type} {f : β → α → β} {P : β → Prop} (h : ∀ b a, P b → P (f b a))
    {as : List α} {b : β} (hb : P b) : P (as.foldl f b) := by
  induction as generalizing b with
  | nil => exact hb
  | cons a as ih => exact ih (h b a hb)

namespace Footprint

variable {f g : Footprint}

theorem ascending_insert (h : Ascending f) (name : String) (o : Offset) :
    Ascending (f.insert name o) := ascending_alter h ..

theorem ascending_union (h : Ascending f) : Ascending (f.union g) :=
  foldl_preserves (P := Ascending)
    (fun _ p hf => foldl_preserves (P := Ascending) (fun _ o hf => ascending_insert hf p.1 o) hf) h

end Footprint

theorem ascending_outputFootprint {o : Output Node} {f : Footprint}
    (h : Node.outputFootprint o = .ok f) : Ascending f := by
  refine foldlM_preserves (fun f e f' hf hrun => ?_) List.Pairwise.nil h
  obtain ⟨g, -, hf'⟩ := bind_eq_ok.1 hrun
  cases hf'
  exact Footprint.ascending_union hf

namespace Analysis

/-- Inputs are declared if they have the size of the first and new names, all different. -/
theorem declareInputs_ok_iff {first : Input} {d d' : Declared} {inputs : List Input} :
    declareInputs first d inputs = (.ok (), d') ↔
      ((∀ i ∈ inputs, i.size = first.size) ∧ (inputs.map (·.name)).Nodup ∧
        ∀ i ∈ inputs, i.name ∉ d) ∧ d' = d ++ inputs.map (·.name) := by
  induction inputs generalizing d with
  | nil => simp [declareInputs, eq_comm]
  | cons i inputs ih =>
    simp only [declareInputs]
    split
    · next hsize => simp [hsize]
    split
    · next hold => simp [hold]
    next hsize hnew =>
    rw [ih]
    simp only [List.forall_mem_cons, List.map_cons, List.nodup_cons, List.mem_append,
      List.mem_singleton, not_or, forall_and, List.append_assoc, List.singleton_append]
    refine and_congr_left' ?_
    simp only [not_not.1 hsize, hnew, List.mem_map, not_exists, not_and]
    tauto

theorem wellFormed_of_stencilOf {d : Declared} {p : Program Node} {size : List Nat} {s : Stencil}
    (hinputs : p.inputs ≠ []) (hnodup : (p.inputs.map (·.name)).Nodup)
    (hdeclared : ∀ i ∈ p.inputs, i.name ∈ d) (h : stencilOf d p size = .ok s) : s.WellFormed := by
  unfold stencilOf at h
  obtain ⟨_, -, h⟩ := bind_eq_ok.1 h
  obtain ⟨_, htarget, h⟩ := bind_eq_ok.1 h
  obtain ⟨_, -, h⟩ := bind_eq_ok.1 h
  obtain ⟨refs, hrefs, h⟩ := bind_eq_ok.1 h
  obtain ⟨_, -, h⟩ := bind_eq_ok.1 h
  obtain ⟨_, -, h⟩ := bind_eq_ok.1 h
  cases h
  refine ⟨by simpa using hinputs, hnodup, fun hmem => ?_, ascending_outputFootprint hrefs⟩
  obtain ⟨i, hi, hname⟩ := List.mem_map.1 hmem
  unfold checkTarget at htarget
  have hin : p.output.target.name ∈ d := by
    have := hdeclared i hi
    rwa [hname] at this
  rw [if_pos hin] at htarget
  cases htarget

/-- An analysed program has a well-formed stencil, whatever was analysed before it. -/
theorem wellFormed_of_run {d : Declared} {p : Program Node} {s : Stencil}
    (h : (run d p).1 = .ok s) : s.WellFormed := by
  unfold run at h
  split at h
  · cases h
  next first rest hinputs =>
  split at h
  · cases h
  next d' hd =>
  obtain ⟨⟨-, hnodup, -⟩, rfl⟩ := declareInputs_ok_iff.1 hd
  exact wellFormed_of_stencilOf (by simp [hinputs]) hnodup
    (fun i hi => List.mem_append_right _ (List.mem_map_of_mem hi)) h

end Analysis

end GridSweep
