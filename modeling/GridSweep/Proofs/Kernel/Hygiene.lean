import GridSweep.Kernel.Printer
import GridSweep.Proofs.Kernel.MemoryBounds
import GridSweep.Proofs.Kernel.PointValue

/-!
# Names in generated functions

The names of a point function are its parameters and bindings, and those of a stage, of the backbone
and of the interface are their buffers and scalars. `Hygienic` says that none of these lists has a
name twice. Generated names can meet names that were chosen in the source, and analysis does not
rule this out: a kernel is hygienic exactly if the names of its stencil are apart
(`Stencil.NamesApart`). Then its point function has the value of the output statement.
-/

namespace GridSweep

namespace KernelText

/-! ## Buffers and scalars among parameters -/

variable {d : Design} {k : Kernel}

/-- A parameter for a buffer or for a scalar. -/
def Param.isData (d : Design) (p : Param) : Bool :=
  decide (p.type = wordType d ++ " *" ∨ p.type = "float ")

/-- The names of the buffers and scalars among parameters. -/
def dataNames (d : Design) (ps : List Param) : List String := (ps.filter (·.isData d)).map (·.name)

theorem dataNames_append (ps qs : List Param) :
    dataNames d (ps ++ qs) = dataNames d ps ++ dataNames d qs := by
  simp [dataNames]

theorem dataNames_memoryParam (names : List String) :
    dataNames d (names.map (memoryParam d)) = names := by
  simp [dataNames, List.filter_map, Function.comp_def, memoryParam, Param.isData]

theorem dataNames_floatParam (names : List String) :
    dataNames d (names.map floatParam) = names := by
  simp [dataNames, List.filter_map, Function.comp_def, floatParam, Param.isData]

/-- Types of buffers and scalars end in a star or a blank. -/
theorem last_of_isData {p : Param} (h : p.isData d = true) :
    p.type.toList.getLast? = some '*' ∨ p.type = "float " := by
  rcases of_decide_eq_true h with h | h
  · rw [h]
    exact .inl (by simp [String.toList_append])
  · exact .inr h

theorem dataNames_eq_nil {ps : List Param} (h : ∀ p ∈ ps, ¬ p.isData d = true) :
    dataNames d ps = [] := by
  rw [dataNames, List.filter_eq_nil_iff.2 h, List.map_nil]

theorem dataNames_streamParam (names : List String) :
    dataNames d (names.map (streamParam d)) = [] := by
  refine dataNames_eq_nil (List.forall_mem_map.2 fun name _ hdata => ?_)
  have hlast : (streamParam d name).type.toList.getLast? = some '&' := by
    simp [streamParam, String.toList_append]
  rcases last_of_isData hdata with h | h <;> rw [h] at hlast <;> revert hlast <;> decide

theorem dataNames_bool {ps : List Param} (h : ∀ p ∈ ps, p.type = "bool ") :
    dataNames d ps = [] := by
  refine dataNames_eq_nil fun p hp hdata => ?_
  have hlast := last_of_isData hdata
  rw [h p hp] at hlast
  revert hlast
  decide

/-- What a stage keeps in memory, in order. -/
def memoryNames (s : Stage) : List String :=
  Ordered.ofList (((s.feeds.map (·.2.endpoint) ++ [s.output]).filter (!·.isStream)).map (·.name))

theorem dataNames_stageParams (s : Stage) :
    dataNames d (stageParams d k s) = memoryNames s ++ k.point.scalars := by
  unfold stageParams
  rw [dataNames_append, dataNames_append, dataNames_append, dataNames_memoryParam,
    dataNames_streamParam, dataNames_floatParam, dataNames_bool, List.append_nil, List.append_nil]
  · rfl
  · split <;> simp

theorem dataNames_dataParams :
    dataNames d (dataParams d k) = d.buffers.map (·.var) ++ [outputVar d k] ++ k.point.scalars := by
  have hbuffers : d.buffers.map (fun b => memoryParam d b.var) ++ [memoryParam d (outputVar d k)] =
      (d.buffers.map (·.var) ++ [outputVar d k]).map (memoryParam d) := by
    simp
  rw [dataParams, dataNames_append, hbuffers, dataNames_memoryParam, dataNames_floatParam]

theorem dataNames_backboneParams :
    dataNames d (backboneParams d k) = dataNames d (dataParams d k) := by
  rw [backboneParams, dataNames_append, List.append_right_eq_self]
  exact dataNames_bool (by split <;> simp)

theorem dataNames_interfaceSignature :
    dataNames d (interfaceSignature d k).params = dataNames d (dataParams d k) := by
  rw [interfaceSignature, dataNames_append, dataNames_streamParam, List.append_nil]

/-- No name stands twice in the point function, and no buffer or scalar is passed under the name of
another one. -/
structure Hygienic (d : Design) (k : Kernel) : Prop where
  point : (k.point.params ++ k.point.lets.map (·.1)).Nodup
  stages : ∀ s ∈ k.stages, (dataNames d (stageParams d k s)).Nodup
  backbone : (dataNames d (backboneParams d k)).Nodup
  interface : (dataNames d (interfaceSignature d k).params).Nodup

end KernelText

/-- The names that the source chooses stay apart from generated ones and from each other. -/
structure Stencil.NamesApart (s : Stencil) : Prop where
  bindings : s.output.boundNames.Nodup
  taps_scalars : ∀ t ∈ s.taps, t.name ∉ s.scalars
  taps_bindings : ∀ t ∈ s.taps, t.name ∉ s.output.boundNames
  output : s.outputVar ∉ s.scalars

namespace Stencil.Consistent

variable {s : Stencil} {x : String} (h : s.Consistent)
include h

theorem nodup_scalars : s.scalars.Nodup := by
  rw [h.scalars]
  exact nodup_eraseDups _

theorem scalar_not_input (hx : x ∈ s.scalars) : x ∉ s.inputVars := by
  rw [h.scalars, Output.mem_freeNames] at hx
  obtain ⟨⟨e, he, hx⟩, -⟩ := hx
  exact h.vars_not_inputs e he x (Node.mem_vars_iff.2 hx)

theorem scalar_not_bound (hx : x ∈ s.scalars) : x ∉ s.output.boundNames := by
  rw [h.scalars, Output.mem_freeNames] at hx
  exact hx.2

theorem nodup_tapNames (hdims : s.dims = 2) : (s.taps.map (·.name)).Nodup := by
  have hlength := (Node.outputFootprint_eq_ok.1 h.footprint).1
  have hsorted := Node.sorted_outputFootprint h.footprint
  refine Stencil.nodup_tapNames hsorted.ascending (fun p hp => (hsorted.offsets p hp).2)
    fun v o ho => ?_
  obtain ⟨r, hr, -, rfl⟩ := (Node.has_outputFootprint h.footprint).1 ho
  simp [Ref.offsetFrom, hlength r hr, h.target, h.target_dims, hdims]

theorem nodup_params (hdims : s.dims = 2) (hapart : ∀ t ∈ s.taps, t.name ∉ s.scalars) :
    (s.taps.map (·.name) ++ s.scalars).Nodup := by
  refine List.nodup_append.2 ⟨h.nodup_tapNames hdims, h.nodup_scalars, ?_⟩
  rintro x hx _ hmem rfl
  obtain ⟨t, ht, rfl⟩ := List.mem_map.1 hx
  exact hapart t ht hmem

/-- The names of the point function are apart if taps, scalars and bindings are. Scalars and
bindings always are. -/
theorem nodup_point_iff (hdims : s.dims = 2) :
    (s.taps.map (·.name) ++ s.scalars ++ s.output.boundNames).Nodup ↔
      s.output.boundNames.Nodup ∧ (∀ t ∈ s.taps, t.name ∉ s.scalars) ∧
        ∀ t ∈ s.taps, t.name ∉ s.output.boundNames := by
  constructor
  · intro hall
    obtain ⟨hparams, hbound, hapart⟩ := List.nodup_append.1 hall
    obtain ⟨-, -, hscalars⟩ := List.nodup_append.1 hparams
    have hname {t : Tap} (ht : t ∈ s.taps) : t.name ∈ s.taps.map (·.name) := List.mem_map_of_mem ht
    exact ⟨hbound, fun t ht hmem => hscalars _ (hname ht) _ hmem rfl,
      fun t ht hmem => hapart _ (List.mem_append_left _ (hname ht)) _ hmem rfl⟩
  · rintro ⟨hbound, hscalars, hbindings⟩
    refine List.nodup_append.2 ⟨h.nodup_params hdims hscalars, hbound, ?_⟩
    rintro x hx _ hmem rfl
    rcases List.mem_append.1 hx with hx | hx
    · obtain ⟨t, ht, rfl⟩ := List.mem_map.1 hx
      exact hbindings t ht hmem
    · exact h.scalar_not_bound hx hmem

/-- Among buffers, only the output can have the name of a scalar. -/
theorem nodup_data_iff {buffers : List String} (hnodup : buffers.Nodup)
    (hsub : ∀ v ∈ buffers, v ∈ s.inputVars ∨ v = s.outputVar) :
    (buffers ++ s.scalars).Nodup ↔ (s.outputVar ∈ buffers → s.outputVar ∉ s.scalars) := by
  constructor
  · intro hall hmem hscalar
    exact (List.nodup_append.1 hall).2.2 _ hmem _ hscalar rfl
  · intro hout
    refine List.nodup_append.2 ⟨hnodup, h.nodup_scalars, ?_⟩
    rintro v hv _ hscalar rfl
    rcases hsub v hv with hinput | rfl
    · exact h.scalar_not_input hscalar hinput
    · exact hout hv hscalar

end Stencil.Consistent

namespace Generate

open KernelText

variable {s : Stencil} {target : Accelerator} {design : Design} {kernel : Kernel} {stage : Stage}
  {m : List (String × LineBuffer)} {plan : Plan}

theorem Built.var_mem (h : Built target s m plan design) {b : LineBuffer} (hb : b ∈ ordered s m) :
    b.var ∈ s.inputVars := by
  rw [← h.vars_ordered]
  exact List.mem_map_of_mem hb

/-- The buffers of a stage are inputs and the output. -/
theorem Built.of_mem_memoryNames (h : Built target s m plan design)
    (hkernel : kernel ∈ design.kernels) (hstage : stage ∈ kernel.stages) {v : String}
    (hv : v ∈ memoryNames stage) : v ∈ s.inputVars ∨ v = s.outputVar := by
  obtain ⟨n, hget⟩ := List.getElem?_of_mem hstage
  obtain ⟨hn, hone⟩ := h.stage_at hkernel hget
  obtain ⟨-, hfeeds, houtput⟩ := stage_fields hone
  simp only [memoryNames, Ordered.mem_ofList, List.mem_map, List.mem_filter, hfeeds, List.map_map,
    List.mem_append, List.mem_singleton] at hv
  obtain ⟨e, ⟨⟨b, hb, rfl⟩ | rfl, hmemory⟩, rfl⟩ := hv
  · left
    have hvar := h.var_mem hb
    simp only [Function.comp_apply, feedOf, feed] at hmemory ⊢
    split at hmemory
    · next hfirst =>
      rw [if_pos hfirst]
      exact hvar
    · cases hmemory
  · right
    rw [houtput, stageOutput_eq hn] at hmemory ⊢
    split at hmemory
    · next hlast =>
      rw [if_pos hlast]
      rfl
    · cases hmemory

theorem Built.outputVar_eq (h : Built target s m plan design) (hne : s.inputVars ≠ [])
    (hkernel : kernel ∈ design.kernels) : outputVar design kernel = s.outputVar := by
  obtain ⟨last, hlast, houtput, -⟩ := h.last_stored hne hkernel
  simp [outputVar, hlast, houtput, Endpoint.name]

theorem Built.dataNames_eq (h : Built target s m plan design) (hne : s.inputVars ≠ [])
    (hkernel : kernel ∈ design.kernels) (hprints : kernel.point.Prints s) :
    dataNames design (dataParams design kernel) = s.inputVars ++ [s.outputVar] ++ s.scalars := by
  rw [dataNames_dataParams, h.outputVar_eq hne hkernel, h.buffers, h.vars_ordered, hprints.scalars]

theorem Built.hygienic_iff (h : Built target s m plan design) (hwf : s.WellFormed)
    (hcons : s.Consistent) (hkernel : kernel ∈ design.kernels) (hprints : kernel.point.Prints s) :
    Hygienic design kernel ↔ s.NamesApart := by
  have hdata := h.dataNames_eq hwf.inputs_ne hkernel hprints
  have hbuffers : (s.inputVars ++ [s.outputVar]).Nodup := by
    refine List.nodup_append.2 ⟨hwf.inputs_nodup, List.pairwise_singleton _ _, ?_⟩
    rintro v hv _ hout rfl
    exact hwf.output_new (List.mem_singleton.1 hout ▸ hv)
  have hkernel_iff : (s.inputVars ++ [s.outputVar] ++ s.scalars).Nodup ↔
      s.outputVar ∉ s.scalars := by
    rw [hcons.nodup_data_iff hbuffers (by simp)]
    simp
  have hpoint := hcons.nodup_point_iff h.dims
  rw [← hprints.names_lets, ← hprints.params] at hpoint
  constructor
  · intro hyg
    have hinterface := hyg.interface
    rw [dataNames_interfaceSignature, hdata, hkernel_iff] at hinterface
    obtain ⟨hbindings, hscalars, hbound⟩ := hpoint.1 hyg.point
    rw [hprints.names_lets] at hbindings hbound
    exact ⟨hbindings, hscalars, hbound, hinterface⟩
  · intro hapart
    refine ⟨hpoint.2 ?_, fun stage hstage => ?_, ?_, ?_⟩
    · rw [hprints.names_lets]
      exact ⟨hapart.bindings, hapart.taps_scalars, hapart.taps_bindings⟩
    · rw [dataNames_stageParams, hprints.scalars]
      have hnodup : (memoryNames stage).Nodup := (pairwise_ofList _).imp ne_of_lt
      exact (hcons.nodup_data_iff hnodup fun v hv =>
        h.of_mem_memoryNames hkernel hstage hv).2 fun _ => hapart.output
    · rw [dataNames_backboneParams, hdata, hkernel_iff]
      exact hapart.output
    · rw [dataNames_interfaceSignature, hdata, hkernel_iff]
      exact hapart.output

/-- The lane values that a stage reads are those of its ports. -/
theorem Built.stageTaps_eq (h : Built target s m plan design) (hne : s.inputVars ≠ [])
    (hkernel : kernel ∈ design.kernels) (hstage : stage ∈ kernel.stages) :
    stageTaps stage = (ports target s).map (·.name) := by
  obtain ⟨n, hget⟩ := List.getElem?_of_mem hstage
  obtain ⟨-, hone⟩ := h.stage_at hkernel hget
  obtain ⟨inits, reads, moves, drained, -, hreads, -, -, hevents⟩ := stage_ok hone
  obtain ⟨b, -, hb, -⟩ := h.exists_buffer (iteratedVar_mem hne)
  obtain ⟨taps, rfl, htaps⟩ := laneReads_ok h.dims ⟨b, hb⟩ hreads
  have hnames : (ports target s).map (·.name) = taps.map (·.1) := by
    rw [← List.forall₂_eq_eq_eq, List.forall₂_map_left_iff, List.forall₂_map_right_iff]
    exact htaps.imp fun _ _ ht => ht.1.symm
  rw [hnames, stageTaps, hevents taps rfl]
  simp [StageCode.events, List.filterMap_append, List.filterMap_map, Function.comp_def]

/-- A stage passes lanes of the taps and the scalars themselves, if no scalar is named like a lane
value that the stage reads. -/
theorem Built.pointCall_args_iff (h : Built target s m plan design) (hne : s.inputVars ≠ [])
    (hkernel : kernel ∈ design.kernels) (hprints : kernel.point.Prints s)
    (hstage : stage ∈ kernel.stages) :
    (pointCall (stageTaps stage) kernel.point.name kernel.point.params).args =
        s.taps.map (fun t => t.name ++ "[k]") ++ s.scalars ↔
      ∀ t ∈ ports target s, t.name ∉ s.scalars := by
  have htaps : (s.taps.map (·.name)).map (lanedArgument ((ports target s).map (·.name))) =
      s.taps.map fun t => t.name ++ "[k]" := by
    rw [List.map_map]
    refine List.map_congr_left fun t ht => if_pos ?_
    exact List.mem_map_of_mem (List.mem_append_left _ ht)
  rw [h.stageTaps_eq hne hkernel hstage, hprints.params]
  simp only [pointCall, List.map_append, htaps, List.append_cancel_left_eq]
  constructor
  · intro hsame t ht hscalar
    have harg := List.map_inj_left.1 (hsame.trans (List.map_id _).symm) t.name hscalar
    rw [lanedArgument, if_pos (List.mem_map_of_mem ht)] at harg
    simpa using congrArg String.length harg
  · intro hapart
    refine (List.map_congr_left fun x hx => ?_).trans (List.map_id _)
    refine if_neg fun hmem => ?_
    obtain ⟨t, ht, rfl⟩ := List.mem_map.1 hmem
    exact hapart t ht hx

end Generate

section

open KernelText Generate

/-- The kernels that a source compiles to are hygienic exactly if the names of its stencil are
apart, and then their point functions have the value of the output statement. -/
theorem compiled_hygienic_iff {source : String} {target : Accelerator} {design : Design}
    (h : compileSource source target = .ok design) :
    ∃ q p s, Surface.parseProgram source = .ok q ∧ q.lower = .ok p ∧ p.analyze = .ok s ∧
      s.generate target = .ok design ∧ ∀ k ∈ design.kernels,
        k.point.Prints s ∧ (Hygienic design k ↔ s.NamesApart) ∧
        (∀ stage ∈ k.stages, (pointCall (stageTaps stage) k.point.name k.point.params).args =
            s.taps.map (fun t => t.name ++ "[k]") ++ s.scalars ↔
          ∀ t ∈ ports target s, t.name ∉ s.scalars) ∧
        (s.NamesApart → ∀ {V : Type} [AddCommGroup V] (I : Interpretation V) (a : Assignment V),
          I.statement (.ofArguments k.point.params (s.arguments a)) s.body =
              I.statement a s.output ∧
            ((∀ e ∈ p.output.expressions, ∀ f ∈ e.folds, I.Exact f) →
              I.statement a s.output = I.statement a p.output)) := by
  obtain ⟨s, hs, hd⟩ := bind_eq_ok.1 h
  obtain ⟨q, hq, hs⟩ := bind_eq_ok.1 hs
  obtain ⟨p, hp, hs⟩ := bind_eq_ok.1 hs
  have hproper := Surface.Program.proper_of_lower hp
  have hcons := Analysis.consistent_of_analyze hproper hs
  have hwf := Analysis.wellFormed_of_run hs
  obtain ⟨m, plan, hbuilt⟩ := built_of_generate hd
  refine ⟨q, p, s, hq, hp, hs, hd, fun k hk => ?_⟩
  have hprints := prints_of_pointFunction (hbuilt.point k hk)
  refine ⟨hprints, hbuilt.hygienic_iff hwf hcons hk hprints,
    fun stage hstage => hbuilt.pointCall_args_iff hwf.inputs_ne hk hprints hstage,
    fun hapart V _ I a => ⟨?_, fun hexact => ?_⟩⟩
  · rw [hprints.params]
    exact hcons.statement_body hapart.taps_bindings
      (hcons.agrees_ofArguments (hcons.nodup_params hbuilt.dims hapart.taps_scalars))
  · rw [(Analysis.models_of_analyze hproper hs).output]
    exact Interpretation.statement_simplifyOutput hproper hexact

/-- `output d = a(0, 0) * c  b(0, 0) = d - a(0, 0)`. -/
def scaled : Stencil where
  iterate := 1
  kernelName := "k"
  partitions := 1
  size := [1, 16]
  inputVars := ["a"]
  outputVar := "b"
  outputIdx := [0, 0]
  output :=
    { target := ⟨"b", [0, 0]⟩
      bindings := [⟨"d", .chain .product
        [.operand (.ref ⟨"a", [0, 0]⟩), .operand (.var "c")] ["*"]⟩]
      value := .chain .sum [.operand (.var "d"), .operand (.ref ⟨"a", [0, 0]⟩)] ["-"] }
  refs := [("a", [[0, 0]])]
  scalars := ["c"]

theorem scaled_analyzed : analyzeSource
    "ITERATE: 1 KERNEL: k COUNT: 1 input a(1, 16) output d = a(0, 0) * c b(0, 0) = d - a(0, 0)" =
      .ok scaled := by
  decide +kernel

theorem scaled_generated : ∃ design k, scaled.generate .standard = .ok design ∧
    k ∈ design.kernels ∧ k.point.params = ["a_0_0", "c"] :=
  ⟨_, _, rfl, List.mem_cons_self, rfl⟩

/-- The tap, the scalar and the binding have names of their own. -/
theorem scaled_hygienic : ∃ design k,
    compileSource
      "ITERATE: 1 KERNEL: k COUNT: 1 input a(1, 16) output d = a(0, 0) * c b(0, 0) = d - a(0, 0)"
      .standard = .ok design ∧ k ∈ design.kernels ∧ Hygienic design k ∧
    (∀ stage ∈ k.stages, (pointCall (stageTaps stage) k.point.name k.point.params).args =
      ["a_0_0[k]", "c"]) ∧
    ∀ (I : Interpretation ℚ) (a : Assignment ℚ),
      I.statement (.ofArguments ["a_0_0", "c"] [a.ref ⟨"a", [0, 0]⟩, a.var "c"]) scaled.body =
        I.statement a scaled.output := by
  obtain ⟨design, k, hd, hk, hparams⟩ := scaled_generated
  have hcompile : compileSource
      "ITERATE: 1 KERNEL: k COUNT: 1 input a(1, 16) output d = a(0, 0) * c b(0, 0) = d - a(0, 0)"
      .standard = .ok design := by
    rw [compileSource, scaled_analyzed, ok_bind, hd]
  obtain ⟨q, p, s, hq, hp, hs, -, hkernels⟩ := compiled_hygienic_iff hcompile
  obtain rfl : s = scaled := by
    have hsource := scaled_analyzed
    rw [analyzeSource, hq, ok_bind, Surface.Program.analyze, hp, ok_bind, hs] at hsource
    exact Except.ok.inj hsource
  obtain ⟨-, hyg, hcall, hvalue⟩ := hkernels k hk
  have hapart : scaled.NamesApart := ⟨by decide, by decide +kernel, by decide +kernel, by decide⟩
  refine ⟨design, k, hcompile, hk, hyg.2 hapart, fun stage hstage => ?_, fun I a => ?_⟩
  · exact (hcall stage hstage).2 (by decide +kernel)
  · rw [← (hvalue hapart I a).1, hparams]
    rfl

/-- `output b(0, 0) = a(0, 0) + a_0_0`, where the scalar has the name of the tap. -/
def tapNamed : Stencil where
  iterate := 1
  kernelName := "k"
  partitions := 1
  size := [1, 16]
  inputVars := ["a"]
  outputVar := "b"
  outputIdx := [0, 0]
  output :=
    { target := ⟨"b", [0, 0]⟩
      bindings := []
      value := .chain .sum [.operand (.ref ⟨"a", [0, 0]⟩), .operand (.var "a_0_0")] ["+"] }
  refs := [("a", [[0, 0]])]
  scalars := ["a_0_0"]

theorem tapNamed_analyzed : analyzeSource
    "ITERATE: 1 KERNEL: k COUNT: 1 input a(1, 16) output b(0, 0) = a(0, 0) + a_0_0" =
      .ok tapNamed := by
  decide +kernel

theorem tapNamed_generated : ∃ design k, tapNamed.generate .standard = .ok design ∧
    k ∈ design.kernels ∧ k.point.params = ["a_0_0", "a_0_0"] :=
  ⟨_, _, rfl, List.mem_cons_self, rfl⟩

/-- The point function adds the tap to itself, whatever the scalar is. -/
theorem tap_named_scalar_confused : ∃ design k,
    compileSource "ITERATE: 1 KERNEL: k COUNT: 1 input a(1, 16) output b(0, 0) = a(0, 0) + a_0_0"
      .standard = .ok design ∧ k ∈ design.kernels ∧ k.point.Prints tapNamed ∧
    ¬ Hygienic design k ∧ ∃ a : Assignment ℚ,
      Interpretation.arithmetic.statement (.ofArguments k.point.params (tapNamed.arguments a))
        tapNamed.body ≠ Interpretation.arithmetic.statement a tapNamed.output := by
  obtain ⟨design, k, hd, hk, hparams⟩ := tapNamed_generated
  obtain ⟨m, plan, hbuilt⟩ := built_of_generate hd
  refine ⟨design, k, by rw [compileSource, tapNamed_analyzed, ok_bind, hd], hk,
    prints_of_pointFunction (hbuilt.point k hk), fun hyg => ?_, ⟨fun _ => 1, fun _ => 2⟩, ?_⟩
  · have hpoint := hyg.point
    rw [hparams] at hpoint
    simp at hpoint
  · rw [hparams]
    change (1 : ℚ) + 1 ≠ 1 + 2
    norm_num

end

end GridSweep
