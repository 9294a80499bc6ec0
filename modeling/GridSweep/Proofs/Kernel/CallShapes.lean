import GridSweep.Proofs.Kernel.PrintedCalls

/-!
# Calls against definitions in a kernel's text

The functions of a kernel's text have names of their own (`Kernel.Named.nodup_functions`), so that a
call belongs to one definition. A stage is defined and called once, with its own parameters
(`calls_of_stage`, `stageCall_args`). All calls pass an argument for each parameter, except those of
an exchange without steps: it has no streams, and an empty argument stands in their place
(`exchangeCall_fits_iff`). Such a kernel is generated for bands without a halo, and
`compiled_calls_match_iff` says that there are no others.
-/

namespace GridSweep

open CText KernelText

/-! ## Names of the functions -/

/-- The name of a stage starts like this. -/
def staged (x : String) : Bool := "stage".toList.isPrefixOf x.toList

/-- The name of a point function ends like this. -/
def pointed (x : String) : Bool := "_point".toList.isSuffixOf x.toList

theorem pointed_append (x : String) : pointed (x ++ "_point") = true := by
  rw [pointed, List.isSuffixOf_iff_suffix, String.toList_append]
  exact List.suffix_append ..

theorem t_notMem_toString (n : Nat) : 't' ∉ (toString n).toList := by
  rw [toList_toString]
  intro h
  have := Nat.isDigit_of_mem_toDigits (by omega) (by omega) h
  exact absurd this (by decide)

theorem StageRange.name_shape (r : StageRange) : staged r.name = true ∧ pointed r.name = false := by
  unfold StageRange.name
  split
  · exact ⟨rfl, rfl⟩
  · exact ⟨rfl, rfl⟩
  · next i _ =>
    unfold staged pointed
    rw [String.toList_append]
    refine ⟨rfl, Bool.eq_false_iff.2 fun h => ?_⟩
    -- a number does not end with the last letter of the suffix
    obtain ⟨front, hfront⟩ := List.isSuffixOf_iff_suffix.1 h
    have hlast := congrArg List.getLast? hfront
    have hdigits : (toString i).toList ≠ [] := fun hnil =>
      (isName_toString i).1 (String.toList_eq_nil_iff.1 hnil)
    rw [List.getLast?_append_of_ne_nil _ (by decide),
      List.getLast?_append_of_ne_nil _ hdigits] at hlast
    exact t_notMem_toString i (List.mem_of_getLast? hlast.symm)
  · exact ⟨rfl, rfl⟩

theorem StageRange.kind_of_name {r r' : StageRange} (h : r.name = r'.name) : r.kind = r'.kind := by
  -- the letter behind `stage_` tells the kinds apart
  have hletter := congrArg (·.toList[6]?) h
  unfold StageRange.name at h hletter
  cases hr : r.kind <;> cases hr' : r'.kind <;>
    simp only [hr, hr', String.toList_append] at h hletter
  case single.single | first.first | last.last => rfl
  case middle.middle i j => rw [toString_inj ((String.append_right_inj _).1 h)]
  all_goals cases hletter

theorem Plan.kindOf_inj {count i j : Nat} (hi : i < count) (hj : j < count)
    (h : kindOf count i = kindOf count j) : i = j := by
  grind [kindOf]

/-- A kernel whose functions have the names that they are generated with. -/
structure Kernel.Named (d : Design) (k : Kernel) : Prop where
  point : pointed k.point.name = true
  stages : ∀ s ∈ k.stages, staged s.name = true ∧ pointed s.name = false
  nodup : (k.stages.map (·.name)).Nodup
  count : k.stages.length = d.header.stageCount

open Generate in
theorem Generate.Built.named {target : Accelerator} {s : Stencil} {m : List (String × LineBuffer)}
    {plan : Plan} {design : Design} {k : Kernel} (h : Built target s m plan design)
    (hk : k ∈ design.kernels) : k.Named design := by
  obtain ⟨⟨-, -, hstages⟩, -⟩ := plan_of_create h.plan_eq
  have hlength : k.stages.length = plan.stageCount := by
    rw [← (h.stages k hk).length_eq, hstages]
    simp
  have hnames : k.stages.map (·.name) = plan.stages.map (·.name) := by
    have hsame := (h.stages k hk).imp fun range stage hone => (stage_name hone).symm
    rw [eq_comm, ← List.forall₂_eq_eq_eq, List.forall₂_map_left_iff, List.forall₂_map_right_iff]
    exact hsame
  exact {
    point := by
      rw [pointFunction_name (h.point k hk)]
      exact pointed_append _
    stages := fun stage hstage => by
      have hmem := List.mem_map_of_mem (f := (·.name)) hstage
      rw [hnames] at hmem
      obtain ⟨range, -, hrange⟩ := List.mem_map.1 hmem
      exact hrange ▸ range.name_shape
    nodup := by
      rw [hnames, hstages, List.map_map]
      refine List.Nodup.map_on (fun i hi j hj hij => ?_) List.nodup_range
      exact Plan.kindOf_inj (List.mem_range.1 hi) (List.mem_range.1 hj)
        (StageRange.kind_of_name hij)
    count := by
      rw [hlength, h.header]
      rfl }

/-- The functions whose names do not depend on the source. -/
def fixedFunctions (k : Kernel) : List String :=
  ["lane", "lane_bits", "backbone", "exchange", k.name]

theorem fixedFunctions_shape (k : Kernel) : ∀ f ∈ fixedFunctions k,
    f ∉ quietWords ∧ staged f = false ∧ pointed f = false := by
  unfold fixedFunctions Kernel.name
  cases k.role <;> decide

theorem mem_functions {k : Kernel} {f : String} (h : f ∈ functions k) :
    f ∈ fixedFunctions k ∨ f = k.point.name ∨ f ∈ k.stages.map (·.name) := by
  simp only [functions, fixedFunctions, List.mem_append, List.mem_cons] at h ⊢
  tauto

namespace Kernel.Named

variable {d : Design} {k : Kernel} (h : k.Named d)
include h

/-- No keyword, method or function of the language has the name of a function of the text. -/
theorem quiet : ∀ w ∈ quietWords, w ∉ functions k := by
  have hshape : ∀ w ∈ quietWords, staged w = false ∧ pointed w = false := by decide
  intro w hw hmem
  rcases mem_functions hmem with hfixed | rfl | hstage
  · exact (fixedFunctions_shape k w hfixed).1 hw
  · exact Bool.false_ne_true ((hshape _ hw).2.symm.trans h.point)
  · obtain ⟨s, hs, rfl⟩ := List.mem_map.1 hstage
    exact Bool.false_ne_true ((hshape _ hw).1.symm.trans (h.stages s hs).1)

theorem point_notMem_fixed : k.point.name ∉ fixedFunctions k := fun hmem =>
  Bool.false_ne_true ((fixedFunctions_shape k _ hmem).2.2.symm.trans h.point)

theorem stage_ne {s : Stage} (hs : s ∈ k.stages) :
    s.name ∉ fixedFunctions k ∧ s.name ≠ k.point.name := by
  refine ⟨fun hmem => ?_, fun heq => ?_⟩
  · exact Bool.false_ne_true ((fixedFunctions_shape k _ hmem).2.1.symm.trans (h.stages s hs).1)
  · exact Bool.false_ne_true ((h.stages s hs).2.symm.trans (heq ▸ h.point))

theorem nodup_functions : (functions k).Nodup := by
  have hpoint := h.point_notMem_fixed
  have hstages : ∀ f ∈ k.stages.map (·.name), f ∉ fixedFunctions k ∧ f ≠ k.point.name :=
    List.forall_mem_map.2 fun s hs => h.stage_ne hs
  have hfixed : (fixedFunctions k).Nodup := by
    unfold fixedFunctions Kernel.name
    cases k.role <;> decide
  have hnodup := h.nodup
  simp only [fixedFunctions, List.mem_cons, List.nodup_cons] at hpoint hstages hfixed
  simp only [functions, List.nodup_append, List.nodup_cons, List.mem_cons, List.mem_append]
  grind

end Kernel.Named

/-! ## Definitions and calls of a text -/

namespace CText

/-- A call passes an argument for each parameter, and no empty one. -/
def Application.Fits (c f : Application) : Prop :=
  c.args.length = f.args.length ∧ ∀ a ∈ c.args, a ≠ []

/-- All calls of functions that the text defines fit. -/
def CallsMatch (text : String) : Prop :=
  ∀ c ∈ calls text, ∀ f ∈ definitions text, c.name = f.name → c.Fits f

theorem definitions_eq (names : List String) (text : String) :
    definitions text = (found names 0 none (atoms text)).filter (·.depth = 0) := by
  rw [found, List.filter_filter]
  refine List.filter_congr fun a _ => ?_
  simp only [relevant]
  by_cases h : a.depth = 0 <;> simp [h]

/-- Calls of the given functions. -/
theorem calls_eq (names : List String) (text : String) :
    (calls text).filter (·.name ∈ names) =
      (found names 0 none (atoms text)).filter (0 < ·.depth) := by
  rw [found, calls, List.filter_filter, List.filter_filter]
  refine List.filter_congr fun a _ => ?_
  simp only [relevant]
  by_cases h : a.depth = 0 <;> simp [h, Nat.pos_iff_ne_zero]

end CText

namespace KernelText

/-- The heads of the functions of a kernel. -/
def heads (d : Design) (k : Kernel) : List Application :=
  [laneApplication d, laneBitsApplication, (pointSignature k.point).application] ++
    (k.stages.map (fun s => (stageSignature d k s).application) ++
      ((backboneSignature d k).application ::
        (exchangeApplications d k ++ [(interfaceSignature d k).application])))

/-- The calls in the functions of a kernel. -/
def innerCalls (d : Design) (k : Kernel) : List Application :=
  k.stages.flatMap (fun s => eventsCalls (stageTaps s) 0 s.events) ++
    (k.stages.zipIdx.map (fun p => (stageCall d k p.1 p.2).application 1) ++
      (sweepApplications d k (iteratedBuffer d) (outputVar d k) ++
        sweepApplications d k (outputVar d k) (iteratedBuffer d)))

variable {d : Design} {k : Kernel}

theorem depth_pos_of_mem_eventsCalls {taps : List String} {events : List Event} {depth : Nat}
    {c : Application} (h : c ∈ eventsCalls taps depth events) : 0 < c.depth := by
  obtain ⟨n, ⟨slice, rfl⟩ | ⟨function, args, forward, -, hc⟩⟩ := cases_of_mem_eventsCalls h
  · exact Nat.succ_pos n
  · simp only [computeCalls, List.mem_cons, List.not_mem_nil, or_false] at hc
    rcases hc with rfl | rfl <;> exact Nat.succ_pos n

theorem definitions_kernelText (hk : k.Worded d) (hnamed : k.Named d) :
    definitions (d.kernelText k) = heads d k := by
  have hstage (s : Stage) : (stageApplications d k s).filter (·.depth = 0) =
      [(stageSignature d k s).application] := by
    rw [stageApplications, List.filter_cons_of_pos (by rfl), List.filter_eq_nil_iff.2]
    intro c hc
    simpa using Nat.ne_of_gt (depth_pos_of_mem_eventsCalls hc)
  rw [definitions_eq (functions k), found_kernelText hk hnamed.quiet, kernelApplications, heads]
  simp only [List.filter_append, List.filter_flatMap, hstage, ← List.map_eq_flatMap]
  simp [backboneApplications, exchangeApplications, interfaceApplications, sweepApplications,
    List.filter_map, Signature.application, Call.application, laneApplication,
    laneBitsApplication, Function.comp_def]

theorem calls_kernelText (hk : k.Worded d) (hnamed : k.Named d) :
    (calls (d.kernelText k)).filter (·.name ∈ functions k) = innerCalls d k := by
  have hstage (s : Stage) : (stageApplications d k s).filter (0 < ·.depth) =
      eventsCalls (stageTaps s) 0 s.events := by
    rw [stageApplications, List.filter_cons_of_neg (by simp [Signature.application])]
    exact List.filter_eq_self.2 fun c hc => decide_eq_true (depth_pos_of_mem_eventsCalls hc)
  rw [calls_eq (functions k), found_kernelText hk hnamed.quiet, kernelApplications, innerCalls]
  simp only [List.filter_append, List.filter_flatMap, hstage]
  simp [backboneApplications, exchangeApplications, interfaceApplications, sweepApplications,
    List.filter_map, Signature.application, Call.application, laneApplication,
    laneBitsApplication, Function.comp_def]

/-- The functions that the text of a kernel defines, in its order. -/
def definedNames (k : Kernel) : List String :=
  ["lane", "lane_bits", k.point.name] ++ k.stages.map (·.name) ++
    ("backbone" :: (k.exchange.toList.map fun _ => "exchange") ++ [k.name])

theorem names_heads (d : Design) (k : Kernel) : (heads d k).map (·.name) = definedNames k := by
  simp [heads, definedNames, exchangeApplications, Signature.application, Function.comp_def,
    laneApplication, laneBitsApplication, pointSignature, stageSignature, backboneSignature,
    exchangeSignature, interfaceSignature]

theorem definedNames_sublist (k : Kernel) : (definedNames k).Sublist (functions k) := by
  refine List.Sublist.append_left (List.Sublist.cons_cons _ ?_) _
  cases k.exchange with
  | none => exact List.sublist_cons_self ..
  | some e => exact List.Sublist.refl _

theorem head_unique (hnamed : k.Named d) {f g : Application} (hf : f ∈ heads d k)
    (hg : g ∈ heads d k) (h : f.name = g.name) : f = g := by
  refine List.inj_on_of_nodup_map ?_ hf hg h
  rw [names_heads]
  exact hnamed.nodup_functions.sublist (definedNames_sublist k)

theorem stage_mem_heads {s : Stage} (hs : s ∈ k.stages) :
    (stageSignature d k s).application ∈ heads d k := by
  simp only [heads, List.mem_append, List.mem_map]
  exact .inr (.inl ⟨s, hs, rfl⟩)

theorem exchange_mem_heads {e : ExchangeProtocol} (he : e ∈ k.exchange) :
    (exchangeSignature d e).application ∈ heads d k := by
  simp only [heads, exchangeApplications, List.mem_append, List.mem_cons, List.mem_map]
  exact .inr (.inr (.inr (.inl ⟨e, Option.mem_toList.2 he, rfl⟩)))

/-- A kernel that exchanges rows does so for the output behind an even sweep. -/
theorem exchangeCall_mem_innerCalls {e : ExchangeProtocol} (he : e ∈ k.exchange) :
    (exchangeCall e (outputVar d k)).application 3 ∈ innerCalls d k := by
  simp only [innerCalls, sweepApplications, List.mem_append, List.mem_cons, List.mem_map]
  exact .inr (.inr (.inl (.inr ⟨e, Option.mem_toList.2 he, rfl⟩)))

/-! ## Calls fit -/

theorem laneCall_fits (depth : Nat) (s : LaneSlice) :
    (laneCall depth s).Fits (laneApplication d) := by
  refine ⟨rfl, ?_⟩
  simp only [laneCall, laneArgs]
  split <;> simp

/-- What a stage is called with for a parameter: its name, and for `skip` the flag of the stage. -/
def passedFor (index : Nat) (param : List Atom) : List Atom :=
  if param = [.word "bool", .word "skip"] then [.word s!"skip_{index}"] else param.getLast?.toList

theorem Param.Plain.passed {p : Param} (h : p.Plain) (htype : atoms p.type ≠ [.word "bool"])
    (i : Nat) : passedFor i (atoms p.text) = atoms p.argument := by
  have hskip : atoms p.text ≠ [.word "bool", .word "skip"] := by
    rw [h.atoms_text]
    intro heq
    have hsplit : atoms p.type ++ [Atom.word p.name] = [Atom.word "bool"] ++ [Atom.word "skip"] :=
      heq
    exact htype (List.append_inj' hsplit rfl).1
  rw [passedFor, if_neg hskip, h.argument_eq, h.name.atoms_eq, h.atoms_text, List.getLast?_concat]
  rfl

/-- Buffers, streams and scalars are followed by the flag of a stage that can skip. -/
theorem exists_stageParams (d : Design) (k : Kernel) (s : Stage) : ∃ ps : List Param,
    stageParams d k s = ps ++ (if 1 < d.header.stageCount then [⟨"bool ", "skip"⟩] else []) ∧
      ∀ p ∈ ps, atoms p.type ≠ [.word "bool"] := by
  -- pointers and references end with a mark
  have hmark {as : List Atom} {c : Char} : as ++ [Atom.mark c] ≠ [Atom.word "bool"] := fun h => by
    have hsplit : as ++ [Atom.mark c] = [] ++ [Atom.word "bool"] := h
    cases (List.append_inj' hsplit rfl).2
  refine ⟨_, rfl, fun p hp => ?_⟩
  simp only [List.mem_append, List.mem_map] at hp
  rcases hp with (⟨x, -, rfl⟩ | ⟨x, -, rfl⟩) | ⟨x, -, rfl⟩
  · rw [memoryParam, atoms_memoryType]
    exact hmark
  · rw [streamParam, atoms_channelType]
    exact hmark
  · show atoms "float " ≠ [.word "bool"]
    decide

/-- A stage is called with its own parameters. -/
theorem stageCall_args (hk : k.Worded d) {s : Stage} (hs : s ∈ k.stages) (i : Nat) :
    (stageCall d k s i).args.map atoms =
      ((stageParams d k s).map (atoms ·.text)).map (passedFor i) := by
  have hplain := plain_stageParams hk hs
  obtain ⟨ps, hps, htypes⟩ := exists_stageParams d k s
  unfold stageCall
  rw [hps] at hplain ⊢
  have hown : (ps.map Param.argument).map atoms =
      (ps.map fun p : Param => atoms p.text).map (passedFor i) := by
    rw [List.map_map, List.map_map]
    refine List.map_congr_left fun p hp => ?_
    rw [Function.comp_apply, Function.comp_apply,
      (hplain p (List.mem_append_left _ hp)).passed (htypes p hp) i]
  by_cases hskip : 1 < d.header.stageCount
  · have hflag : atoms s!"skip_{i}" = passedFor i (atoms "bool skip") := (isName_skip i).atoms_eq
    simp only [if_pos hskip, List.map_append, List.map_cons, List.map_nil, List.dropLast_concat,
      hown, hflag]
    rfl
  · simpa only [if_neg hskip, List.append_nil] using hown

theorem stageCall_fits (hk : k.Worded d) {s : Stage} (hs : s ∈ k.stages) (i : Nat) :
    ((stageCall d k s i).application 1).Fits (stageSignature d k s).application := by
  refine ⟨?_, List.forall_mem_map.2 fun a ha => atoms_ne_of_isName (isName_stageCall hk hs i a ha)⟩
  exact (congrArg List.length (stageCall_args hk hs i)).trans (List.length_map _)

theorem backboneCall_fits (hk : k.Worded d) (hnamed : k.Named d) {iterated reads writes : String}
    (hreads : IsName reads) (hwrites : IsName writes) (depth : Nat) :
    ((backboneCall d k iterated reads writes).application depth).Fits
      (backboneSignature d k).application := by
  refine ⟨?_, List.forall_mem_map.2 fun a ha =>
    (atoms_backboneCall hk iterated hreads hwrites a ha).2⟩
  simp only [Call.application, Signature.application, backboneCall, backboneSignature,
    backboneParams, dataParams, List.length_map, List.length_append, ← hnamed.count]
  split <;> simp

theorem exchangeStreams_eq_nil_iff (e : ExchangeProtocol) :
    exchangeStreams e = [] ↔ e.steps = [] := by
  refine ⟨fun h => ?_, fun h => by simp [exchangeStreams, h]⟩
  rw [List.eq_nil_iff_forall_not_mem]
  intro s hs
  have hlink := List.filterMap_eq_nil_iff.1 h (s.neighbor, s.transfer) (by
    cases s.neighbor <;> cases s.transfer <;> simp)
  have hany : (e.steps.any fun x => x.neighbor = s.neighbor ∧ x.transfer = s.transfer) = true :=
    List.any_eq_true.2 ⟨s, hs, by simp⟩
  simp only [hany, if_true] at hlink
  cases hlink

/-- The exchange is called with an empty argument where it has no streams. -/
theorem exchangeCall_fits_iff {e : ExchangeProtocol} {buffer : String} (h : IsName buffer)
    (depth : Nat) : ((exchangeCall e buffer).application depth).Fits
      (exchangeSignature d e).application ↔ e.steps ≠ [] := by
  rw [Ne, ← exchangeStreams_eq_nil_iff]
  simp only [Application.Fits, Call.application, Signature.application, exchangeCall,
    exchangeSignature, streamArguments]
  cases hstreams : exchangeStreams e with
  | nil => simp
  | cons x xs =>
    have hnames := isName_exchangeStreams e
    rw [hstreams] at hnames
    refine ⟨fun _ => List.cons_ne_nil _ _, fun _ => ⟨by simp, ?_⟩⟩
    refine List.forall_mem_map.2 (List.forall_mem_cons.2 ⟨atoms_ne_of_isName h, fun a ha => ?_⟩)
    exact atoms_ne_of_isName (hnames a ha)

/-- A stage computes with the point function of its kernel. -/
theorem compute_of_mem (hk : k.Worded d) {s : Stage} (hs : s ∈ k.stages) {function : String}
    {args : List String} {forward : Option String}
    (h : .compute function args forward ∈ s.events) : function = k.point.name ∧
      args = k.point.params ∧ ∀ x ∈ forward, IsName x := by
  obtain ⟨p, hevents, hfunction, hargs, hnames⟩ := (hk.stages s hs).code
  rw [hevents] at h
  have hname := hnames _ h
  simp only [Event.names, List.mem_cons, List.mem_append, Option.mem_toList] at hname
  simp only [StageCode.events, List.mem_append, List.mem_cons, List.mem_map, reduceCtorEq,
    Event.compute.injEq, and_false, exists_false, false_or, or_false] at h
  exact ⟨h.1.trans hfunction, h.2.1.trans hargs, fun x hx => hname x (.inr (.inr hx))⟩

/-- The calls in a stage fit. -/
theorem eventsCalls_fit (hk : k.Worded d) {s : Stage} (hs : s ∈ k.stages) {c : Application}
    (hc : c ∈ eventsCalls (stageTaps s) 0 s.events) :
    ∃ f ∈ heads d k, c.name = f.name ∧ c.Fits f := by
  obtain ⟨n, ⟨slice, rfl⟩ | ⟨function, args, forward, hmem, hc⟩⟩ := cases_of_mem_eventsCalls hc
  · exact ⟨laneApplication d, by simp [heads], rfl, laneCall_fits _ slice⟩
  obtain ⟨rfl, rfl, hforward⟩ := compute_of_mem hk hs hmem
  simp only [computeCalls, List.mem_cons, List.not_mem_nil, or_false] at hc
  rcases hc with rfl | rfl
  · refine ⟨laneBitsApplication, by simp [heads], rfl, rfl, ?_⟩
    exact List.forall_mem_singleton.2 (solid_pointValue hk.point hk.params hforward).2
  · refine ⟨(pointSignature k.point).application, by simp [heads], rfl, ?_, ?_⟩
    · simp [Call.application, Signature.application, pointCall, pointSignature]
    · exact List.forall_mem_map.2 fun a ha => (flat_pointCall hk.params a ha).2

/-- The calls in a sweep fit if the exchange has steps. -/
theorem sweep_fits (hk : k.Worded d) (hnamed : k.Named d) (hsteps : ∀ e ∈ k.exchange, e.steps ≠ [])
    {reads writes : String} (hreads : IsName reads) (hwrites : IsName writes) {c : Application}
    (hc : c ∈ sweepApplications d k reads writes) :
    ∃ f ∈ heads d k, c.name = f.name ∧ c.Fits f := by
  rcases List.mem_cons.1 hc with rfl | hc
  · exact ⟨(backboneSignature d k).application, by simp [heads], rfl,
      backboneCall_fits hk hnamed hreads hwrites 3⟩
  · obtain ⟨e, he, rfl⟩ := List.mem_map.1 hc
    have he := Option.mem_toList.1 he
    exact ⟨(exchangeSignature d e).application, exchange_mem_heads he, rfl,
      (exchangeCall_fits_iff hwrites 3).2 (hsteps e he)⟩

theorem innerCalls_fit (hk : k.Worded d) (hnamed : k.Named d)
    (hsteps : ∀ e ∈ k.exchange, e.steps ≠ []) {c : Application} (hc : c ∈ innerCalls d k) :
    ∃ f ∈ heads d k, c.name = f.name ∧ c.Fits f := by
  have hiterated := isName_iteratedBuffer hk
  simp only [innerCalls, List.mem_append, List.mem_flatMap, List.mem_map] at hc
  rcases hc with ⟨s, hs, hc⟩ | ⟨p, hp, rfl⟩ | hc | hc
  · exact eventsCalls_fit hk hs hc
  · have hs : p.1 ∈ k.stages := List.fst_mem_of_mem_zipIdx hp
    exact ⟨(stageSignature d k p.1).application, stage_mem_heads hs, rfl, stageCall_fits hk hs p.2⟩
  · exact sweep_fits hk hnamed hsteps hiterated hk.output hc
  · exact sweep_fits hk hnamed hsteps hk.output hiterated hc

theorem mem_innerCalls_iff (hk : k.Worded d) (hnamed : k.Named d) {c : Application} :
    c ∈ innerCalls d k ↔ c ∈ calls (d.kernelText k) ∧ c.name ∈ functions k := by
  rw [← calls_kernelText hk hnamed, List.mem_filter, decide_eq_true_eq]

theorem callsMatch_iff (hk : k.Worded d) (hnamed : k.Named d) :
    CallsMatch (d.kernelText k) ↔ ∀ e ∈ k.exchange, e.steps ≠ [] := by
  unfold CallsMatch
  rw [definitions_kernelText hk hnamed]
  refine ⟨fun h e he => ?_, fun h c hc f hf hname => ?_⟩
  · have hcall := ((mem_innerCalls_iff hk hnamed).1 (exchangeCall_mem_innerCalls he)).1
    exact (exchangeCall_fits_iff hk.output 3).1 (h _ hcall _ (exchange_mem_heads he) rfl)
  · have hfunction : f.name ∈ functions k := by
      refine (definedNames_sublist k).subset ?_
      rw [← names_heads d k]
      exact List.mem_map_of_mem hf
    have hinner := (mem_innerCalls_iff hk hnamed).2 ⟨hc, hname ▸ hfunction⟩
    -- the call fits the function it is generated for, and no other one has the name
    obtain ⟨g, hg, hcg, hfits⟩ := innerCalls_fit hk hnamed h hinner
    rwa [head_unique hnamed hf hg (hname.symm.trans hcg)]

/-! ## Stages are called once -/

theorem filter_eq_singleton {α β : Type} [DecidableEq β] {xs : List α} (key : α → β)
    (hnodup : (xs.map key).Nodup) {x : α} (hx : x ∈ xs) : xs.filter (key · = key x) = [x] := by
  induction xs with
  | nil => cases hx
  | cons y xs ih =>
    obtain ⟨hy, hxs⟩ := List.nodup_cons.1 hnodup
    rcases List.mem_cons.1 hx with rfl | hx
    · rw [List.filter_cons_of_pos (by simp), List.filter_eq_nil_iff.2]
      intro z hz hzx
      exact hy (List.mem_map.2 ⟨z, hz, of_decide_eq_true hzx⟩)
    · have hne : key y ≠ key x := fun heq => hy (List.mem_map.2 ⟨x, hx, heq.symm⟩)
      rw [List.filter_cons_of_neg (by simpa using hne), ih hxs hx]

theorem definitions_of_stage (hk : k.Worded d) (hnamed : k.Named d) {s : Stage}
    (hs : s ∈ k.stages) : (definitions (d.kernelText k)).filter (·.name = s.name) =
      [(stageSignature d k s).application] := by
  have hnodup : ((heads d k).map (·.name)).Nodup := by
    rw [names_heads]
    exact hnamed.nodup_functions.sublist (definedNames_sublist k)
  rw [definitions_kernelText hk hnamed]
  exact filter_eq_singleton Application.name hnodup (stage_mem_heads hs)

theorem name_of_mem_eventsCalls (hk : k.Worded d) {s : Stage} (hs : s ∈ k.stages) {c : Application}
    (hc : c ∈ eventsCalls (stageTaps s) 0 s.events) :
    c.name ∈ fixedFunctions k ∨ c.name = k.point.name := by
  obtain ⟨n, ⟨slice, rfl⟩ | ⟨function, args, forward, hmem, hc⟩⟩ := cases_of_mem_eventsCalls hc
  · exact .inl (by simp [laneCall, fixedFunctions])
  simp only [computeCalls, List.mem_cons, List.not_mem_nil, or_false] at hc
  rcases hc with rfl | rfl
  · exact .inl (by simp [fixedFunctions])
  · exact .inr (compute_of_mem hk hs hmem).1

theorem name_of_mem_sweepApplications {reads writes : String} {c : Application}
    (hc : c ∈ sweepApplications d k reads writes) : c.name ∈ fixedFunctions k := by
  rcases List.mem_cons.1 hc with rfl | hc
  · simp [Call.application, backboneCall, fixedFunctions]
  · obtain ⟨e, -, rfl⟩ := List.mem_map.1 hc
    simp [Call.application, exchangeCall, fixedFunctions]

theorem calls_of_stage (hk : k.Worded d) (hnamed : k.Named d) {s : Stage} {i : Nat}
    (hi : k.stages[i]? = some s) : (calls (d.kernelText k)).filter (·.name = s.name) =
      [(stageCall d k s i).application 1] := by
  have hs : s ∈ k.stages := List.mem_of_getElem? hi
  obtain ⟨hfixed, hpoint⟩ := hnamed.stage_ne hs
  have hfunction : s.name ∈ functions k :=
    List.mem_append_left _ (List.mem_append_right _ (List.mem_map_of_mem hs))
  have hinner : (calls (d.kernelText k)).filter (·.name = s.name) =
      (innerCalls d k).filter (·.name = s.name) := by
    rw [← calls_kernelText hk hnamed, List.filter_filter]
    refine List.filter_congr fun c _ => ?_
    by_cases h : c.name = s.name <;> simp [h, hfunction]
  have hevents : (k.stages.flatMap fun s => eventsCalls (stageTaps s) 0 s.events).filter
      (·.name = s.name) = [] := by
    refine List.filter_eq_nil_iff.2 fun c hc hname => ?_
    obtain ⟨t, ht, hc⟩ := List.mem_flatMap.1 hc
    rw [decide_eq_true_eq] at hname
    rcases name_of_mem_eventsCalls hk ht hc with h | h
    · exact hfixed (hname ▸ h)
    · exact hpoint (hname.symm.trans h)
  have hsweep (reads writes : String) :
      (sweepApplications d k reads writes).filter (·.name = s.name) = [] := by
    refine List.filter_eq_nil_iff.2 fun c hc hname => hfixed ?_
    exact of_decide_eq_true hname ▸ name_of_mem_sweepApplications hc
  have hstage : (k.stages.zipIdx.map fun p => (stageCall d k p.1 p.2).application 1).filter
      (·.name = s.name) = [(stageCall d k s i).application 1] := by
    have hmem : (stageCall d k s i).application 1 ∈
        k.stages.zipIdx.map fun p => (stageCall d k p.1 p.2).application 1 :=
      List.mem_map.2 ⟨(s, i), List.mk_mem_zipIdx_iff_getElem?.2 hi, rfl⟩
    have hnames : (k.stages.zipIdx.map fun p => (stageCall d k p.1 p.2).application 1).map
        (·.name) = k.stages.map (·.name) := by
      rw [List.map_map, ← List.zipIdx_map_fst 0 k.stages, List.map_map, List.zipIdx_map_fst]
      rfl
    exact filter_eq_singleton Application.name (hnames ▸ hnamed.nodup) hmem
  rw [hinner, innerCalls, List.filter_append, List.filter_append, List.filter_append, hevents,
    hstage, hsweep, hsweep]
  rfl

end KernelText

/-! ## Compiled kernels -/

/-- An exchange moves nothing exactly if the buffers have no halo. -/
theorem ExchangeProtocol.steps_ne_nil_iff {role : Role} {plan : Plan} {wordsPerRow : Nat}
    {e : ExchangeProtocol} (h : forRole role plan wordsPerRow = .ok (some e)) :
    e.steps ≠ [] ↔ 0 < plan.haloRows := by
  have hhalo : plan.haloRows = plan.topRows + plan.bottomRows := Nat.add_mul ..
  unfold forRole at h
  split at h
  · cases h
  next hrole =>
  split at h
  · cases h
  cases h
  rw [hhalo]
  cases role with
  | uni => exact (hrole rfl).elim
  | up | mid | down =>
    simp [stepsOf, withAbove, withBelow]
    omega

/-- The text of a compiled kernel defines each of its functions once and calls each stage once, with
the stage's own parameters. All calls fit their definitions, unless rows are exchanged between bands
without a halo. -/
theorem compiled_calls_match_iff {source : String} {target : Accelerator} {design : Design}
    (h : compileSource source target = .ok design) {k : Kernel} (hk : k ∈ design.kernels) :
    (definitions (design.kernelText k)).map (·.name) = definedNames k ∧ (definedNames k).Nodup ∧
    (∀ i stage, k.stages[i]? = some stage → ∃ f,
      (definitions (design.kernelText k)).filter (·.name = stage.name) = [f] ∧
      (calls (design.kernelText k)).filter (·.name = stage.name) =
        [⟨1, stage.name, f.args.map (passedFor i)⟩]) ∧
    (CallsMatch (design.kernelText k) ↔ (k.exchange.isSome → 0 < design.host.haloRows)) := by
  have hworded := worded_of_compileSource h hk
  obtain ⟨s, -, hd⟩ := bind_eq_ok.1 h
  obtain ⟨m, plan, hbuilt⟩ := Generate.built_of_generate hd
  have hnamed := hbuilt.named hk
  refine ⟨?_, hnamed.nodup_functions.sublist (definedNames_sublist k), fun i stage hi => ?_, ?_⟩
  · rw [definitions_kernelText hworded hnamed, names_heads]
  · have hs : stage ∈ k.stages := List.mem_of_getElem? hi
    refine ⟨_, definitions_of_stage hworded hnamed hs, ?_⟩
    rw [calls_of_stage hworded hnamed hi, Call.application, stageCall_args hworded hs]
    rfl
  · have hexchange := hbuilt.exchange k hk
    obtain ⟨schedule, hhost⟩ := hbuilt.host
    rw [callsMatch_iff hworded hnamed, hhost]
    cases hk : k.exchange with
    | none => simp
    | some e =>
      rw [hk] at hexchange
      have hsteps := ExchangeProtocol.steps_ne_nil_iff hexchange
      simpa [Generate.hostSizing] using hsteps

/-- `output b(0, 0) = a(-1, 0) * c + a(0, -1)` in two bands. -/
def tilted : Stencil where
  iterate := 3
  kernelName := "tilted"
  partitions := 2
  size := [4, 8]
  inputVars := ["a"]
  outputVar := "b"
  outputIdx := [0, 0]
  output := ⟨⟨"b", [0, 0]⟩, [], .chain .sum
    [.chain .product [.operand (.ref ⟨"a", [-1, 0]⟩), .operand (.var "c")] ["*"],
      .operand (.ref ⟨"a", [0, -1]⟩)] ["+"]⟩
  refs := [("a", [[-1, 0], [0, -1]])]
  scalars := ["c"]

theorem tilted_analyzed : analyzeSource
    "ITERATE: 3 KERNEL: tilted COUNT: 2 input a(4, 8) output b(0, 0) = a(-1, 0) * c + a(0, -1)" =
      .ok tilted := by
  decide +kernel

theorem tilted_generated : ∃ (design : Design) (k : Kernel) (stage : Stage),
    tilted.generate ⟨2, 64, 2, 1⟩ = .ok design ∧ k ∈ design.kernels ∧
    k.stages[1]? = some stage ∧ stage.name = "stage_out" ∧ k.exchange.isSome ∧
    design.host.haloRows = 2 := by
  have hcheck : (tilted.generate ⟨2, 64, 2, 1⟩).toOption.any (fun design =>
      design.host.haloRows = 2 ∧ ∃ k ∈ design.kernels, k.exchange.isSome ∧
        k.stages[1]?.any (fun stage : Stage => stage.name = "stage_out")) = true := by
    decide +kernel
  cases hd : tilted.generate ⟨2, 64, 2, 1⟩ with
  | error e => simp [hd, Except.toOption] at hcheck
  | ok design =>
    simp only [hd, Except.toOption, Option.any_some, decide_eq_true_eq,
      Option.any_eq_true] at hcheck
    obtain ⟨hhalo, k, hk, hsome, stage, hget, hname⟩ := hcheck
    exact ⟨design, k, stage, rfl, hk, hget, hname, hsome, hhalo⟩

/-- Two stages, of which the second one may skip, and rows to exchange. -/
theorem tilted_calls_match : ∃ (design : Design) (k : Kernel) (f : Application), compileSource
    "ITERATE: 3 KERNEL: tilted COUNT: 2 input a(4, 8) output b(0, 0) = a(-1, 0) * c + a(0, -1)"
      ⟨2, 64, 2, 1⟩ = .ok design ∧ k ∈ design.kernels ∧ k.exchange.isSome ∧
    CallsMatch (design.kernelText k) ∧
    (definitions (design.kernelText k)).filter (·.name = "stage_out") = [f] ∧
    (calls (design.kernelText k)).filter (·.name = "stage_out") =
      [⟨1, "stage_out", f.args.map (passedFor 1)⟩] := by
  obtain ⟨design, k, stage, hd, hk, hget, hname, hsome, hhalo⟩ := tilted_generated
  have hcompile : compileSource
      "ITERATE: 3 KERNEL: tilted COUNT: 2 input a(4, 8) output b(0, 0) = a(-1, 0) * c + a(0, -1)"
      ⟨2, 64, 2, 1⟩ = .ok design := by
    rw [compileSource, tilted_analyzed, ok_bind, hd]
  obtain ⟨-, -, hstages, hmatch⟩ := compiled_calls_match_iff hcompile hk
  obtain ⟨f, hf, hcalls⟩ := hstages 1 stage hget
  rw [hname] at hf hcalls
  exact ⟨design, k, f, hcompile, hk, hsome, hmatch.2 fun _ => by omega, hf, hcalls⟩

/-- `output b(0, 0) = a(0, 0)` in two bands, which read no rows of each other. -/
def copied : Stencil where
  iterate := 2
  kernelName := "k"
  partitions := 2
  size := [8, 32]
  inputVars := ["a"]
  outputVar := "b"
  outputIdx := [0, 0]
  output := ⟨⟨"b", [0, 0]⟩, [], .operand (.ref ⟨"a", [0, 0]⟩)⟩
  refs := [("a", [[0, 0]])]
  scalars := []

theorem copied_analyzed : analyzeSource
    "ITERATE: 2 KERNEL: k COUNT: 2 input a(8, 32) output b(0, 0) = a(0, 0)" = .ok copied := by
  decide +kernel

theorem copied_generated : ∃ (design : Design) (k : Kernel),
    copied.generate .standard = .ok design ∧ k ∈ design.kernels ∧
    k.exchange = some ⟨.up, 2, []⟩ ∧ outputVar design k = "b" :=
  ⟨_, _, rfl, List.mem_cons_self, rfl, rfl⟩

/-- The exchange has one parameter and is called with two arguments, of which one is empty. -/
theorem copied_exchange_misfit : ∃ (design : Design) (k : Kernel) (f : Application), compileSource
    "ITERATE: 2 KERNEL: k COUNT: 2 input a(8, 32) output b(0, 0) = a(0, 0)" .standard = .ok design ∧
    k ∈ design.kernels ∧ f ∈ definitions (design.kernelText k) ∧ f.name = "exchange" ∧
    f.args.length = 1 ∧ ⟨3, "exchange", [[.word "b"], []]⟩ ∈ calls (design.kernelText k) := by
  obtain ⟨design, k, hd, hk, hexchange, houtput⟩ := copied_generated
  have hcompile : compileSource
      "ITERATE: 2 KERNEL: k COUNT: 2 input a(8, 32) output b(0, 0) = a(0, 0)" .standard =
        .ok design := by
    rw [compileSource, copied_analyzed, ok_bind, hd]
  have hworded := worded_of_compileSource hcompile hk
  obtain ⟨m, plan, hbuilt⟩ := Generate.built_of_generate hd
  have hnamed := hbuilt.named hk
  refine ⟨design, k, (exchangeSignature design ⟨.up, 2, []⟩).application, hcompile, hk, ?_, rfl,
    rfl, ?_⟩
  · rw [definitions_kernelText hworded hnamed]
    exact exchange_mem_heads hexchange
  · refine ((mem_innerCalls_iff hworded hnamed).1 ?_).1
    have hcall : (exchangeCall ⟨.up, 2, []⟩ (outputVar design k)).application 3 ∈
        innerCalls design k := exchangeCall_mem_innerCalls hexchange
    rwa [houtput] at hcall

end GridSweep
