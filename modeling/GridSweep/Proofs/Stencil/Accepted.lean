import GridSweep.Proofs.Stencil.Statements

/-!
# Which programs are analysed, and what the stencil says

`Program.WellFormed` lists what a program has to meet and `Stencil.Models` what its stencil says
about it; both speak of the expressions as they are written, although the checks look at the
simplified ones. Each check is an equivalence (`checkHeader_ok_iff` and those after it), and the
analysis of a lowered program succeeds if and only if the program is well-formed.
-/

namespace GridSweep

namespace Program

/-- The size of the grid, which the first input gives. -/
def gridSize (p : Program Node) : List Nat := (p.inputs.head?.map (·.size)).getD []

def inputNames (p : Program Node) : List String := p.inputs.map (·.name)

/-- What a program has to meet to be analysed. References and variables are those of the expressions
as they are written, wherever they stand in them. -/
structure WellFormed (p : Program Node) : Prop where
  inputs_ne : p.inputs ≠ []
  same_size : ∀ i ∈ p.inputs, i.size = p.gridSize
  inputs_nodup : p.inputNames.Nodup
  iterate_pos : 1 ≤ p.iterate
  partitions_pos : 1 ≤ p.partitions
  rows_pos : 0 < p.gridSize.headD 0
  rows_split : p.partitions ∣ p.gridSize.headD 0
  output_new : p.output.target.name ∉ p.inputNames
  target_dims : p.output.target.idx.length = p.gridSize.length
  vars_not_inputs : ∀ e ∈ p.output.expressions, ∀ x, .var x ∈ e.parts → x ∉ p.inputNames
  /-- Expression number `k` has the bindings with smaller numbers in front of it. -/
  bound_before : ∀ (k : Nat) (e : Node), p.output.expressions[k]? = some e → ∀ x,
    .var x ∈ e.parts → x ∈ p.output.boundNames → x ∈ p.output.boundNames.take k
  refs_dims : ∀ r, p.output.Reads r → r.idx.length = p.gridSize.length
  refs_inputs : ∀ r, p.output.Reads r → r.name ∈ p.inputNames
  inputs_read : ∀ v ∈ p.inputNames, ∃ r, p.output.Reads r ∧ r.name = v

end Program

/-- A stencil says of a program what the program says itself. -/
structure Stencil.Models (s : Stencil) (p : Program Node) : Prop where
  iterate : s.iterate = p.iterate
  kernelName : s.kernelName = p.kernelName
  partitions : s.partitions = p.partitions
  size : s.size = p.gridSize
  inputVars : s.inputVars = p.inputNames
  target : (⟨s.outputVar, s.outputIdx⟩ : Ref) = p.output.target
  output : s.output = Node.simplifyOutput p.output
  partRows_mul : s.partRows * s.partitions = s.gridRows
  partRows_pos : 1 ≤ s.partRows
  names_nodup : (s.refs.map (·.1)).Nodup
  mem_names : ∀ v, v ∈ s.refs.map (·.1) ↔ v ∈ p.inputNames
  offsets_nodup : ∀ v os, s.refs.get? v = some os → os.Nodup
  mem_offsets : ∀ v os, s.refs.get? v = some os → ∀ o, o ∈ os ↔
    ∃ r, p.output.Reads r ∧ r.name = v ∧ r.offsetFrom p.output.target.idx = o
  scalars : s.scalars = p.output.freeNames
  scalars_nodup : s.scalars.Nodup

/-- A stencil agrees with its own statement. -/
structure Stencil.Consistent (s : Stencil) : Prop where
  proper : s.output.Proper
  target : s.output.target = ⟨s.outputVar, s.outputIdx⟩
  target_dims : s.outputIdx.length = s.dims
  footprint : Node.outputFootprint s.output = .ok s.refs
  mem_names : ∀ v, v ∈ s.refs.map (·.1) ↔ v ∈ s.inputVars
  vars_not_inputs : ∀ e ∈ s.output.expressions, ∀ x ∈ e.vars, x ∉ s.inputVars
  bound_before : ∀ (k : Nat) (e : Node), s.output.expressions[k]? = some e → ∀ x ∈ e.vars,
    x ∈ s.output.boundNames → x ∈ s.output.boundNames.take k
  scalars : s.scalars = s.output.freeNames

namespace Analysis

open Output (boundNames_simplifyOutput)

variable {d : Declared} {p : Program Node} {size : List Nat} {s : Stencil}

/-! ## The checks -/

theorem checkHeader_ok_iff : checkHeader p size = .ok () ↔ 1 ≤ p.iterate ∧ 1 ≤ p.partitions ∧
    0 < size.headD 0 ∧ p.partitions ∣ size.headD 0 := by
  unfold checkHeader
  dsimp only
  split
  · next h => simp [h]
  split
  · next h => simp [h]
  next hiterate hpartitions =>
  rw [Nat.dvd_iff_mod_eq_zero]
  split
  · next h =>
    simp only [reduceCtorEq, false_iff]
    omega
  · next h =>
    simp only [true_iff]
    omega

theorem checkTarget_ok_iff {target : Ref} : checkTarget d target size = .ok () ↔
    target.name ∉ d ∧ target.idx.length = size.length := by
  unfold checkTarget
  split
  · next h => simp [h]
  split
  · next h => simp [h]
  · next hnew hlen => simpa [hnew] using hlen

theorem checkDeclared_ok_iff {f : Footprint} :
    checkDeclared d f = .ok () ↔ ∀ v ∈ f.map (·.1), v ∈ d := by
  unfold checkDeclared
  rw [List.forall_mem_map]
  split
  · next name os h =>
    have hname : name ∉ d := by simpa using List.find?_some h
    simp only [reduceCtorEq, false_iff]
    exact fun hall => hname (hall _ (List.mem_of_find?_eq_some h))
  · next h => simpa using h

theorem checkRead_ok_iff {inputs : List String} {f : Footprint} :
    checkRead inputs f = .ok () ↔ ∀ v ∈ inputs, f.get? v ≠ none := by
  unfold checkRead
  split
  · next name h =>
    have hname : f.get? name = none := by simpa using List.find?_some h
    simp only [reduceCtorEq, false_iff]
    exact fun hall => hall _ (List.mem_of_find?_eq_some h) hname
  · next h => simpa [Option.isSome_iff_ne_none] using h

theorem addScalar_ok_iff {bound scalars scalars' : List String} {k : Nat} {x : String} :
    addScalar d bound k scalars x = .ok scalars' ↔
      (x ∉ d ∧ (x ∈ bound → x ∈ bound.take k)) ∧ scalars' = addNew bound scalars x := by
  unfold addScalar addNew
  split
  · next h => simp [h]
  next hd =>
  split
  · next j hj =>
    obtain ⟨hlt, hidx : bound.idxOf x = j⟩ := List.findIdx?_eq_some_iff_findIdx_eq.1 hj
    have hx : x ∈ bound := List.idxOf_lt_length_iff.1 (hidx ▸ hlt)
    rw [List.mem_take_iff_idxOf_lt hx, hidx]
    split
    · next hlt => simp [hd, hx, hlt, eq_comm]
    · next hlt => simp [hx, hlt]
  · next hj =>
    have hx : x ∉ bound := fun hx => by simpa using List.findIdx?_eq_none_iff.1 hj x hx
    simp [hd, hx, eq_comm]

/-- No variable is an input or a binding that comes too late; then the scalars are the free
names. -/
theorem scalarVars_ok_iff {o : Output Node} {scalars : List String} :
    scalarVars d o = .ok scalars ↔
      (∀ k e, o.expressions[k]? = some e → ∀ x ∈ e.vars,
        x ∉ d ∧ (x ∈ o.boundNames → x ∈ o.boundNames.take k)) ∧ scalars = o.freeNames := by
  have hloop : scalarVars d o = .ok scalars ↔
      (∀ q ∈ o.expressions.zipIdx, ∀ x ∈ q.1.distinctVars,
        x ∉ d ∧ (x ∈ o.boundNames → x ∈ o.boundNames.take q.2)) ∧
      scalars = o.expressions.zipIdx.foldl
        (fun scalars q => q.1.distinctVars.foldl (addNew o.boundNames) scalars) [] :=
    foldlM_eq_ok_iff fun _ q _ =>
      foldlM_eq_ok_iff (P := fun x => x ∉ d ∧ (x ∈ o.boundNames → x ∈ o.boundNames.take q.2))
        fun _ _ _ => addScalar_ok_iff
  rw [hloop]
  refine and_congr ?_ ?_
  · simp only [Prod.forall, List.mem_zipIdx_iff_getElem?, Node.distinctVars_eq, List.mem_eraseDups]
    exact forall_comm
  · have hall : o.expressions.zipIdx.foldl
        (fun scalars q => q.1.distinctVars.foldl (addNew o.boundNames) scalars) [] =
        o.freeNames := by
      calc
        _ = (o.expressions.zipIdx.map Prod.fst).foldl
            (fun scalars (e : Node) => e.vars.foldl (addNew o.boundNames) scalars) [] := by
          simp only [List.foldl_map, Node.distinctVars_eq, foldl_addNew_eraseDups]
        _ = o.freeNames := by rw [List.zipIdx_map_fst, ← List.foldl_flatMap, ← Output.freeNames_eq]
    rw [hall]

/-- All checks together, for a program whose inputs are declared. -/
theorem stencilOf_ok_iff :
    stencilOf d p size = .ok s ↔
      (1 ≤ p.iterate ∧ 1 ≤ p.partitions ∧ 0 < size.headD 0 ∧ p.partitions ∣ size.headD 0) ∧
      (p.output.target.name ∉ d ∧ p.output.target.idx.length = size.length) ∧
      (∀ k e, (Node.simplifyOutput p.output).expressions[k]? = some e → ∀ x ∈ e.vars,
        x ∉ d ∧ (x ∈ p.output.boundNames → x ∈ p.output.boundNames.take k)) ∧
      ∃ refs, Node.outputFootprint (Node.simplifyOutput p.output) = .ok refs ∧
        (∀ v ∈ refs.map (·.1), v ∈ d) ∧ (∀ v ∈ p.inputs.map (·.name), refs.get? v ≠ none) ∧
        s = {
          iterate := p.iterate
          kernelName := p.kernelName
          partitions := p.partitions
          size
          inputVars := p.inputs.map (·.name)
          outputVar := p.output.target.name
          outputIdx := p.output.target.idx
          output := Node.simplifyOutput p.output
          refs
          scalars := (Node.simplifyOutput p.output).freeNames } := by
  unfold stencilOf
  rw [andThen_eq_ok, checkHeader_ok_iff, andThen_eq_ok, checkTarget_ok_iff, bind_eq_ok]
  refine and_congr_right' (and_congr_right' ?_)
  constructor
  · rintro ⟨scalars, hscalars, hrun⟩
    obtain ⟨hvars, rfl⟩ := scalarVars_ok_iff.1 hscalars
    obtain ⟨refs, hrefs, hrun⟩ := bind_eq_ok.1 hrun
    obtain ⟨hdeclared, hrun⟩ := andThen_eq_ok.1 hrun
    obtain ⟨hread, hrun⟩ := andThen_eq_ok.1 hrun
    rw [boundNames_simplifyOutput] at hvars
    exact ⟨hvars, refs, hrefs, checkDeclared_ok_iff.1 hdeclared, checkRead_ok_iff.1 hread,
      (Except.ok.inj hrun).symm⟩
  · rintro ⟨hvars, refs, hrefs, hdeclared, hread, rfl⟩
    rw [← boundNames_simplifyOutput] at hvars
    refine ⟨_, scalarVars_ok_iff.2 ⟨hvars, rfl⟩, bind_eq_ok.2 ⟨refs, hrefs, ?_⟩⟩
    exact andThen_eq_ok.2 ⟨checkDeclared_ok_iff.2 hdeclared,
      andThen_eq_ok.2 ⟨checkRead_ok_iff.2 hread, rfl⟩⟩

/-- An analysis declares the inputs and goes on with the names declared then. -/
theorem run_cons {first : Input} {rest : List Input} (h : p.inputs = first :: rest) :
    (run d p).1 = (do
      (declareInputs first d p.inputs).1
      stencilOf (declareInputs first d p.inputs).2 p first.size) ∧
      (run d p).2 = (declareInputs first d p.inputs).2 := by
  unfold run
  rw [h]
  dsimp only
  split
  · next e d' hd => exact ⟨by rw [hd, error_bind], by rw [hd]⟩
  · next d' hd => exact ⟨by rw [hd, ok_bind], by rw [hd]⟩

/-- An analysis succeeds if no input was declared before and the checks pass. -/
theorem run_ok_iff : (run d p).1 = .ok s ↔
    (p.inputs ≠ [] ∧ (∀ i ∈ p.inputs, i.size = p.gridSize) ∧ p.inputNames.Nodup ∧
      ∀ v ∈ p.inputNames, v ∉ d) ∧ stencilOf (d ++ p.inputNames) p p.gridSize = .ok s := by
  cases hinputs : p.inputs with
  | nil => simp [run, hinputs]
  | cons first rest =>
    have hsize : p.gridSize = first.size := by simp [Program.gridSize, hinputs]
    rw [(run_cons hinputs).1, andThen_eq_ok, hsize, ← hinputs]
    rcases hdeclare : declareInputs first d p.inputs with ⟨outcome, d'⟩
    constructor
    · rintro ⟨rfl, hs⟩
      obtain ⟨⟨hsame, hnodup, hnew⟩, rfl⟩ := declareInputs_ok_iff.1 hdeclare
      exact ⟨⟨by simp [hinputs], hsame, hnodup, List.forall_mem_map.2 hnew⟩, hs⟩
    · rintro ⟨⟨-, hsame, hnodup, hnew⟩, hs⟩
      have hok := declareInputs_ok_iff.2
        ⟨⟨hsame, hnodup, fun i hi => hnew i.name (List.mem_map_of_mem hi)⟩, rfl⟩
      obtain ⟨rfl, rfl⟩ := Prod.mk.inj (hdeclare.symm.trans hok)
      exact ⟨rfl, hs⟩

theorem analyze_ok_iff : p.analyze = .ok s ↔
    (p.inputs ≠ [] ∧ (∀ i ∈ p.inputs, i.size = p.gridSize) ∧ p.inputNames.Nodup) ∧
      stencilOf p.inputNames p p.gridSize = .ok s := by
  rw [Program.analyze, run_ok_iff]
  simp

/-! ## Programs and their stencils -/

section

variable (ho : p.output.Proper)
include ho

/-- Simplifying keeps the names that are read. -/
theorem mem_names_simplifyOutput {refs : Footprint} {v : String}
    (h : Node.outputFootprint (Node.simplifyOutput p.output) = .ok refs) :
    v ∈ refs.map (·.1) ↔ ∃ r, p.output.Reads r ∧ r.name = v := by
  simp only [Node.mem_names_outputFootprint h, Output.reads_simplifyOutput ho]

theorem analyze_of_wellFormed (h : p.WellFormed) : ∃ s, p.analyze = .ok s := by
  have hrefs : Node.outputFootprint (Node.simplifyOutput p.output) = .ok _ :=
    Node.outputFootprint_eq_ok.2 ⟨fun r hr =>
      (h.refs_dims r ((Output.reads_simplifyOutput ho).1 hr)).trans h.target_dims.symm, rfl⟩
  refine ⟨_, analyze_ok_iff.2 ⟨⟨h.inputs_ne, h.same_size, h.inputs_nodup⟩, stencilOf_ok_iff.2
    ⟨⟨h.iterate_pos, h.partitions_pos, h.rows_pos, h.rows_split⟩,
      ⟨h.output_new, h.target_dims⟩, ?_, _, hrefs, fun v hv => ?_, fun v hv => ?_, rfl⟩⟩⟩
  · rw [Output.forall_vars_simplifyOutput ho]
    exact fun k e he x hx =>
      ⟨h.vars_not_inputs e (List.mem_of_getElem? he) x hx, h.bound_before k e he x hx⟩
  · obtain ⟨r, hr, rfl⟩ := (mem_names_simplifyOutput ho hrefs).1 hv
    exact h.refs_inputs r hr
  · rw [(Node.sorted_outputFootprint hrefs).get?_ne_none_iff, mem_names_simplifyOutput ho hrefs]
    exact h.inputs_read v hv

theorem wellFormed_of_analyze (h : p.analyze = .ok s) : p.WellFormed := by
  obtain ⟨⟨hne, hsame, hnodup⟩, hstencil⟩ := analyze_ok_iff.1 h
  obtain ⟨⟨hiterate, hpartitions, hrows, hsplit⟩, ⟨hnew, hdims⟩, hvars, refs, hrefs, hdeclared,
    hread, -⟩ := stencilOf_ok_iff.1 hstencil
  rw [Output.forall_vars_simplifyOutput ho] at hvars
  exact {
    inputs_ne := hne
    same_size := hsame
    inputs_nodup := hnodup
    iterate_pos := hiterate
    partitions_pos := hpartitions
    rows_pos := hrows
    rows_split := hsplit
    output_new := hnew
    target_dims := hdims
    vars_not_inputs := fun e he x hx => by
      obtain ⟨k, hk⟩ := List.mem_iff_getElem?.1 he
      exact (hvars k e hk x hx).1
    bound_before := fun k e he x hx => (hvars k e he x hx).2
    refs_dims := fun r hr => ((Node.outputFootprint_eq_ok.1 hrefs).1 r
      ((Output.reads_simplifyOutput ho).2 hr)).trans hdims
    refs_inputs := fun r hr => hdeclared _ ((mem_names_simplifyOutput ho hrefs).2 ⟨r, hr, rfl⟩)
    inputs_read := fun v hv => by
      have hname := hread v hv
      rw [(Node.sorted_outputFootprint hrefs).get?_ne_none_iff] at hname
      exact (mem_names_simplifyOutput ho hrefs).1 hname }

theorem consistent_of_analyze (h : p.analyze = .ok s) : s.Consistent := by
  obtain ⟨-, hstencil⟩ := analyze_ok_iff.1 h
  obtain ⟨-, ⟨-, hdims⟩, hvars, refs, hrefs, hdeclared, hread, rfl⟩ :=
    stencilOf_ok_iff.1 hstencil
  exact {
    proper := Output.proper_simplifyOutput ho
    target := rfl
    target_dims := hdims
    footprint := hrefs
    mem_names := fun v => ⟨hdeclared v,
      fun hv => (Node.sorted_outputFootprint hrefs).get?_ne_none_iff.1 (hread v hv)⟩
    vars_not_inputs := fun e he x hx => by
      obtain ⟨k, hk⟩ := List.mem_iff_getElem?.1 he
      exact (hvars k e hk x hx).1
    bound_before := fun k e he x hx => by
      rw [boundNames_simplifyOutput]
      exact (hvars k e he x hx).2
    scalars := rfl }

theorem models_of_analyze (h : p.analyze = .ok s) : s.Models p := by
  have hcons := consistent_of_analyze ho h
  have hsorted := Node.sorted_outputFootprint hcons.footprint
  obtain ⟨-, hstencil⟩ := analyze_ok_iff.1 h
  obtain ⟨⟨-, hpartitions, hrows, hsplit⟩, -, -, refs, hrefs, -, -, rfl⟩ :=
    stencilOf_ok_iff.1 hstencil
  have hbands : p.gridSize.headD 0 / max p.partitions 1 * p.partitions = p.gridSize.headD 0 := by
    rw [Nat.max_eq_left hpartitions, Nat.div_mul_cancel hsplit]
  exact {
    iterate := rfl
    kernelName := rfl
    partitions := rfl
    size := rfl
    inputVars := rfl
    target := rfl
    output := rfl
    partRows_mul := hbands
    partRows_pos := Nat.pos_of_mul_pos_right (hbands.symm ▸ hrows)
    names_nodup := hsorted.ascending.nodup_keys
    mem_names := hcons.mem_names
    offsets_nodup := fun v os hv => (hsorted.offsets _ (mem_of_get? hv)).2.imp ne_of_lt
    mem_offsets := fun v os hv o => by
      rw [← hsorted.has_iff hv, Node.has_outputFootprint hrefs]
      simp only [Output.reads_simplifyOutput ho]
      rfl
    scalars := Output.freeNames_simplifyOutput ho
    scalars_nodup := nodup_eraseDups _ }

end

end Analysis

/-- A lowered program is analysed exactly if it is well-formed, and its stencil is what the program
says. -/
theorem Program.analyze_ok_iff_wellFormed {q : Surface.Program} {p : Program Node}
    (h : q.lower = .ok p) :
    ((∃ s, p.analyze = .ok s) ↔ p.WellFormed) ∧ ∀ s, p.analyze = .ok s → s.Models p := by
  have ho := Surface.Program.proper_of_lower h
  exact ⟨⟨fun ⟨_, hs⟩ => Analysis.wellFormed_of_analyze ho hs, Analysis.analyze_of_wellFormed ho⟩,
    fun _ hs => Analysis.models_of_analyze ho hs⟩

/-- `output d = a(0, -1) + (a(1, 0) + k)  b(0, 0) = -d * w(0, 0) - d`, twice and in two bands. -/
def weighted : Surface.Program where
  iterate := 2
  kernelName := "weighted"
  partitions := 2
  inputs := [⟨"w", [4, 32]⟩, ⟨"a", [4, 32]⟩]
  output :=
    { target := ⟨"b", [0, 0]⟩
      bindings := [⟨"d", .binary "AddSub"
        [.operand (.ref ⟨"a", [0, -1]⟩), .operand (.paren (.binary "AddSub"
          [.operand (.ref ⟨"a", [1, 0]⟩), .operand (.var "k")] ["+"]))] ["+"]⟩]
      value := .binary "AddSub"
        [.binary "MulDiv"
          [.unary ["-"] (.operand (.var "d")), .operand (.ref ⟨"w", [0, 0]⟩)] ["*"],
          .operand (.var "d")] ["-"] }

/-- The binding is used behind it, and the scalar stands in it. -/
theorem weighted_analyzed :
    ∃ p s, weighted.lower = .ok p ∧ p.analyze = .ok s ∧
      s.refs = [("a", [[0, -1], [1, 0]]), ("w", [[0, 0]])] ∧ s.scalars = ["k"] ∧
      p.WellFormed ∧ s.Models p := by
  have hanalysis := Program.analyze_ok_iff_wellFormed (q := weighted) rfl
  exact ⟨_, _, rfl, rfl, rfl, rfl, hanalysis.1.1 ⟨_, rfl⟩, hanalysis.2 _ rfl⟩

end GridSweep
