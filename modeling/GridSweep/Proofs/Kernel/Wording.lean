import GridSweep.Proofs.Kernel.Channels
import GridSweep.Proofs.Kernel.Hygiene
import GridSweep.Proofs.Node.PrintedWords
import GridSweep.Proofs.Surface.Programs

/-!
# The words of a kernel

The names of a source are identifiers (`worded_of_analyzeSource`), and so every name that is
generated from them is a word of letters, digits and underscores. `Kernel.Worded` collects this for
all that is printed of a kernel, and `worded_of_compileSource` says that every compiled kernel is
worded.
-/

namespace GridSweep

open CText

/-! ## Names of a source -/

theorem isName_of_isIdentifier {x : String} (h : isIdentifier x = true) : IsName x := by
  unfold isIdentifier at h
  split at h
  · cases h
  next c cs hx =>
  simp only [Bool.and_eq_true, List.all_eq_true] at h
  obtain ⟨⟨hstart, hparts⟩, -⟩ := h
  refine ⟨fun hnil => ?_, fun d hd => ?_⟩
  · rw [hnil] at hx
    cases hx
  · rw [hx] at hd
    rcases List.mem_cons.1 hd with rfl | hd
    · unfold Lexer.isWordStart at hstart
      unfold Lexer.isWordPart Char.isAlphanum
      rcases Bool.or_eq_true_iff.1 hstart with halpha | hunder
      · simp [halpha]
      · simp [hunder]
    · exact hparts d hd

/-- All names of a stencil are words. -/
structure Stencil.Worded (s : Stencil) : Prop where
  kernelName : IsName s.kernelName
  inputs : ∀ v ∈ s.inputVars, IsName v
  output : IsName s.outputVar
  bound : ∀ x ∈ s.output.boundNames, IsName x
  expressions : ∀ e ∈ s.output.expressions, e.Proper (fun r => IsName r.name) IsName

namespace Surface

theorem ExprTree.worded_of_lower {d : ExprTree Level.all} {n : Node}
    (hlex : ∀ t ∈ d.phrase.tokens, t.Lexical) (h : d.phrase.meaning.lower = .ok n) :
    n.Proper (fun r => IsName r.name) IsName := by
  obtain ⟨n', hn', hproper, -⟩ := d.derives.tidy (List.suffix_refl _) hlex
  cases h.symm.trans hn'
  obtain ⟨hrefs, hvars⟩ := hproper.leaves
  exact hproper.of_leaves (fun r hr => isName_of_isIdentifier (hrefs r hr).name)
    fun x hx => isName_of_isIdentifier (hvars x hx)

/-- The names of an output statement. -/
theorem OutputTree.worded_of_lower {d : OutputTree} {o : GridSweep.Output Node}
    (hlex : ∀ t ∈ d.phrase.tokens, t.Lexical) (h : lowerOutput d.phrase.meaning = .ok o) :
    IsName o.target.name ∧ (∀ x ∈ o.boundNames, IsName x) ∧
      ∀ e ∈ o.expressions, e.Proper (fun r => IsName r.name) IsName := by
  obtain ⟨bs, hbs, h⟩ := bind_eq_ok.1 h
  obtain ⟨e, he, h⟩ := bind_eq_ok.1 h
  cases h
  have hlets : ∀ b ∈ d.lets, ∀ t ∈ b.phrase.tokens, t.Lexical := fun b hb t ht =>
    hlex t (List.mem_cons_of_mem _ (List.mem_append_left _ (List.mem_flatMap.2 ⟨b, hb, ht⟩)))
  have hrest : ∀ t ∈ d.target.phrase.tokens ++ .equals :: d.value.phrase.tokens, t.Lexical :=
    fun t ht => hlex t (List.mem_cons_of_mem _ (List.mem_append_right _ ht))
  have hbound : ∀ b' ∈ bs, IsName b'.name ∧ b'.value.Proper (fun r => IsName r.name) IsName := by
    intro b' hb'
    obtain ⟨b, hb, hlower⟩ := exists_left_of_forall₂ (mapM_eq_ok_iff.1 hbs) hb'
    obtain ⟨e', he', hb''⟩ := bind_eq_ok.1 hlower
    cases hb''
    obtain ⟨t, ht, rfl⟩ := List.mem_map.1 hb
    have hname := hlets t ht (.ident t.name) List.mem_cons_self
    refine ⟨isName_of_isIdentifier hname, ?_⟩
    exact ExprTree.worded_of_lower (fun u hu => hlets t ht u
      (List.mem_cons_of_mem _ (List.mem_cons_of_mem _ hu))) he'
  refine ⟨?_, List.forall_mem_map.2 fun b hb => (hbound b hb).1, fun e' he' => ?_⟩
  · exact isName_of_isIdentifier
      (hrest (.ident d.target.name) (List.mem_append_left _ List.mem_cons_self))
  · simp only [Output.expressions, List.mem_append, List.mem_map, List.mem_singleton] at he'
    rcases he' with ⟨b, hb, rfl⟩ | rfl
    · exact (hbound b hb).2
    · exact ExprTree.worded_of_lower (fun t ht =>
        hrest t (List.mem_append_right _ (List.mem_cons_of_mem _ ht))) he

end Surface

theorem worded_of_analyzeSource {source : String} {s : Stencil}
    (h : analyzeSource source = .ok s) : s.Worded := by
  obtain ⟨q, hq, hanalyze⟩ := bind_eq_ok.1 h
  obtain ⟨p, hp, hs⟩ := bind_eq_ok.1 hanalyze
  obtain ⟨p', hreturns⟩ := Surface.parseProgram_eq_ok.1 hq
  obtain ⟨-, -, d, rfl, hconsumes⟩ := Surface.Parse.program_sound hreturns
  have hlex := hconsumes.lexical (Surface.Parser.lexical_ofSource source)
  have hmodels := Analysis.models_of_analyze (Surface.Program.proper_of_lower hp) hs
  obtain ⟨o, ho, hp⟩ := bind_eq_ok.1 hp
  cases hp
  obtain ⟨htarget, hbound, hexpressions⟩ := Surface.OutputTree.worded_of_lower
    (fun t ht => hlex t (List.mem_append_right _ (List.mem_append_right _ ht))) ho
  have hinputs : ∀ i ∈ d.input :: d.inputs, IsName i.name := fun i hi =>
    isName_of_isIdentifier (hlex (.ident i.name) (List.mem_append_right _ (List.mem_append_left _
      (List.mem_flatMap.2 ⟨i.phrase, List.mem_map_of_mem hi,
        List.mem_cons_of_mem _ List.mem_cons_self⟩))))
  exact {
    kernelName := by
      rw [hmodels.kernelName]
      exact isName_of_isIdentifier
        (hlex (.ident d.kernelName) (by simp [Surface.ProgramTree.phrase]))
    inputs := by
      rw [hmodels.inputVars]
      intro v hv
      obtain ⟨i, hi, rfl⟩ := List.mem_map.1 hv
      rw [Surface.ProgramTree.phrase] at hi
      obtain ⟨φ, hφ, rfl⟩ := List.mem_map.1 hi
      obtain ⟨t, ht, rfl⟩ := List.mem_map.1 hφ
      exact hinputs t ht
    output := by
      have htarget' : s.outputVar = o.target.name := congrArg Ref.name hmodels.target
      rw [htarget']
      exact htarget
    bound := by
      rw [hmodels.output, Output.boundNames_simplifyOutput]
      exact hbound
    expressions := by
      rw [hmodels.output, Output.expressions_simplifyOutput]
      exact List.forall_mem_map.2 fun e he => (hexpressions e he).simplify }

/-! ## Generated names -/

namespace Offset

theorem isName_coordinateName (c : Int) : IsName (coordinateName c) := by
  unfold coordinateName
  split
  · exact IsName.append (by decide) (isName_toString _).2
  · exact isName_toString _

theorem isName_tapName {var : String} (h : IsName var) (o : Offset) : IsName (tapName var o) := by
  refine IsName.append (h.append (List.all_eq_true.1 rfl)) ?_
  induction o with
  | nil => exact List.all_eq_true.1 rfl
  | cons c o ih =>
    cases o with
    | nil => simpa using (isName_coordinateName c).2
    | cons c' o =>
      rw [List.map_cons, List.map_cons, String.intercalate_cons_cons]
      exact (((isName_coordinateName c).append (List.all_eq_true.1 rfl)).append ih).2

end Offset

theorem Plan.isName_channel (n : Nat) : IsName (channel n) :=
  IsName.append (by decide) (isName_toString n).2

theorem StageRange.isName_name (r : StageRange) : IsName r.name := by
  unfold name
  split
  · decide
  · decide
  · exact IsName.append (by decide) (isName_toString _).2
  · decide

theorem Role.isName_kernelName (r : Role) : IsName r.kernelName := by cases r <;> decide

/-! ## Events -/

def InitOp.names : InitOp → List String
  | .discard source _ => [source.name]
  | .load target source _ => [target, source.name]
  | .fill queue source _ _ => [queue, source.name]

def AdvanceOp.names : AdvanceOp → List String
  | .delay target source => [target, source]
  | .shift target source => [target.name, source.name]
  | .fetch target source _ _ => [target.name, source.name]

def DrainOp.names : DrainOp → List String
  | .queue name _ => [name]
  | .surplus source _ => [source.name]

def LaneRead.names : LaneRead → List String
  | .direct slice => [slice.element]
  | .switch _ low high => [low.element, high.element]

/-- The names that an event is printed with. -/
def Event.names : Event → List String
  | .declare e => [e.name]
  | .init op => op.names
  | .laneRead tap read => tap :: read.names
  | .compute function args forward => function :: (args ++ forward.toList)
  | .store target _ => [target.name]
  | .advance op => op.names
  | .drain op => op.names
  | .beginLoop .. | .endLoop => []

namespace LineBuffer

variable {b : LineBuffer} {f : Feed}

theorem isName_partName (h : IsName b.var) (p : Part) : IsName (b.partName p) := by
  have hline (row : Int) : IsName (b.line row) :=
    (h.append (List.all_eq_true.1 rfl)).append (Offset.isName_coordinateName row).2
  cases p with
  | line row => exact hline row
  | block row index =>
    exact ((hline row).append (List.all_eq_true.1 rfl)).append (isName_toString index).2
  | popped row index =>
    exact ((hline row).append (List.all_eq_true.1 rfl)).append (isName_toString (index + 1)).2

theorem Laid.isName_storage (hl : b.Laid) (h : IsName b.var) {e : Element} (he : e ∈ b.storage) :
    IsName e.name := by
  obtain ⟨p, hp⟩ := hl.exists_part (List.mem_map_of_mem he)
  rw [hp]
  exact isName_partName h p

variable (hl : b.Laid) (h : IsName b.var) (hf : IsName f.endpoint.name)
include hl h hf

theorem isName_init {ops : List InitOp} (hops : b.init f = .ok ops) :
    ∀ op ∈ ops, ∀ n ∈ op.names, IsName n := by
  obtain ⟨-, rfl⟩ := init_eq_ok hl hops
  have hloads (base : Nat) (row : Int) (k : Nat) :
      ∀ op ∈ b.loads f.endpoint base row k, ∀ n ∈ op.names, IsName n := by
    intro op hop
    obtain ⟨i, -, rfl⟩ := List.mem_map.1 hop
    simpa [InitOp.names] using ⟨isName_partName h (.block row i), hf⟩
  have hrows : ∀ base rows, ∀ op ∈ b.rowInits f.endpoint base rows, ∀ n ∈ op.names, IsName n := by
    intro base rows
    fun_induction rowInits b f.endpoint base rows with
    | case1 => simp
    | case2 base row k => exact hloads base row k
    | case3 base row k below hne ih =>
      intro op hop
      rcases List.mem_append.1 hop with hop | hop
      · exact hloads base row k op hop
      rcases List.mem_cons.1 hop with rfl | hop
      · simpa [InitOp.names] using ⟨isName_partName h (.line row), hf⟩
      · exact ih op hop
  intro op hop
  rcases List.mem_append.1 hop with hop | hop
  · unfold discards at hop
    split at hop
    · cases List.mem_singleton.1 hop
      simpa [InitOp.names] using hf
    · cases hop
  · exact hrows _ _ op hop

theorem isName_advance {trips : Nat} {ops : List AdvanceOp} (hops : b.advance f trips = .ok ops) :
    ∀ op ∈ ops, ∀ n ∈ op.names, IsName n := by
  obtain ⟨-, last, hlast, rfl⟩ := hl.advance_eq_ok hops
  have hflow {e : Element} (he : e ∈ b.flow) : IsName e.name :=
    hl.isName_storage h (List.mem_append_left _ he)
  have hshifts : ∀ es : List Element, (∀ e ∈ es, IsName e.name) →
      ∀ op ∈ shifts es, ∀ n ∈ op.names, IsName n := by
    intro es hes
    fun_induction shifts es with
    | case1 target source rest ih =>
      intro op hop
      rcases List.mem_cons.1 hop with rfl | hop
      · simpa [AdvanceOp.names] using ⟨hes target (by simp), hes source (by simp)⟩
      · exact ih (fun e he => hes e (List.mem_cons_of_mem _ he)) op hop
    | case2 => simp
  intro op hop
  simp only [List.mem_append, List.mem_singleton] at hop
  rcases hop with hop | hop | rfl
  · rw [hl.delays_eq] at hop
    obtain ⟨row, -, rfl⟩ := List.mem_map.1 hop
    simpa [AdvanceOp.names] using
      ⟨isName_partName h (.popped row 0), isName_partName h (.block row 0)⟩
  · exact hshifts b.flow (fun e he => hflow he) op hop
  · simpa [AdvanceOp.names] using ⟨hflow (List.mem_of_getLast? hlast), hf⟩

theorem isName_drains {repeated : Bool} {trips : Nat} {ops : List DrainOp}
    (hops : Generate.drains repeated trips b f = .ok ops) :
    ∀ op ∈ ops, ∀ n ∈ op.names, IsName n := by
  obtain rfl := Generate.drains_eq_ok hops
  intro op hop
  rcases List.mem_append.1 hop with hop | hop
  · split at hop
    · rw [hl.drain_eq] at hop
      obtain ⟨e, he, rfl⟩ := List.mem_map.1 hop
      have hname := hl.isName_storage h (List.mem_append_left _ (List.mem_filter.1 he).1)
      simpa [DrainOp.names] using hname
    · cases hop
  · split at hop
    · cases List.mem_singleton.1 hop
      simpa [DrainOp.names] using hf
    · cases hop

omit hl hf

theorem isName_wordElement {row word : Int} {x : String} (hx : b.wordElement row word = .ok x) :
    IsName x := by
  rcases wordElement_eq_ok hx with ⟨-, -, rfl⟩ | ⟨-, -, rfl⟩
  · exact isName_partName h (.block row word.toNat)
  · exact isName_partName h (.popped row _)

theorem isName_laneRead {o : Offset} {r : LaneRead} (hr : b.laneRead o = .ok r) :
    ∀ n ∈ r.names, IsName n := by
  rcases laneRead_eq_ok hr with ⟨_, _, rfl, hlow⟩ | ⟨_, _, _, _, _, rfl, hlow, hhigh⟩
  · simpa [LaneRead.names] using isName_wordElement h hlow
  · simpa [LaneRead.names] using ⟨isName_wordElement h hlow, isName_wordElement h hhigh⟩

end LineBuffer

theorem StageCode.isName_events {p : StageCode} (hdeclares : ∀ e ∈ p.declares, IsName e.name)
    (hinits : ∀ op ∈ p.inits, ∀ n ∈ op.names, IsName n)
    (hreads : ∀ r ∈ p.reads, IsName r.1 ∧ ∀ n ∈ r.2.names, IsName n)
    (hfunction : IsName p.function) (hargs : ∀ x ∈ p.args, IsName x)
    (hforward : ∀ x ∈ p.forward, IsName x) (htarget : IsName p.target.name)
    (hmoves : ∀ op ∈ p.moves, ∀ n ∈ op.names, IsName n)
    (hdrains : ∀ op ∈ p.drains, ∀ n ∈ op.names, IsName n) :
    ∀ e ∈ p.events, ∀ n ∈ e.names, IsName n := by
  intro e he
  simp only [events, List.mem_append, List.mem_cons, List.mem_map] at he
  rcases he with ⟨x, hx, rfl⟩ | ⟨op, hop, rfl⟩ | rfl | ⟨r, hr, rfl⟩ | rfl | rfl | ⟨op, hop, rfl⟩ |
    rfl | ⟨op, hop, rfl⟩
  · simpa [Event.names] using hdeclares x hx
  · exact hinits op hop
  · simp [Event.names]
  · simpa [Event.names] using hreads r hr
  · simp only [Event.names, List.mem_cons, List.mem_append, Option.mem_toList]
    rintro n (rfl | hn | hn)
    · exact hfunction
    · exact hargs n hn
    · exact hforward n hn
  · simpa [Event.names] using htarget
  · exact hmoves op hop
  · simp [Event.names]
  · exact hdrains op hop

/-! ## Kernels -/

/-- A stage whose names are words and whose code calls the point function of its kernel. -/
structure Stage.Worded (k : Kernel) (stage : Stage) : Prop where
  name : IsName stage.name
  feeds : ∀ f ∈ stage.feeds, IsName f.2.endpoint.name
  output : IsName stage.output.name
  code : ∃ p : StageCode, stage.events = p.events ∧ p.function = k.point.name ∧
    p.args = k.point.params ∧ ∀ e ∈ p.events, ∀ n ∈ e.names, IsName n

/-- A kernel whose names are words and whose expressions have parentheses only behind function
names. -/
structure Kernel.Worded (d : Design) (k : Kernel) : Prop where
  app : IsName d.header.appName
  point : IsName k.point.name
  params : ∀ x ∈ k.point.params, IsName x
  scalars : ∀ x ∈ k.point.scalars, IsName x
  lets : ∀ l ∈ k.point.lets, IsName l.1 ∧ inert functionNames (atoms l.2) = true
  result : inert functionNames (atoms k.point.result) = true
  buffers : ∀ b ∈ d.buffers, IsName b.var
  buffers_ne : d.buffers ≠ []
  output : IsName (KernelText.outputVar d k)
  channels : ∀ c ∈ k.channels, IsName c
  stages : ∀ stage ∈ k.stages, stage.Worded k

namespace Generate

variable {s : Stencil} {target : Accelerator} {design : Design} {kernel : Kernel} {stage : Stage}
  {m : List (String × LineBuffer)} {plan : Plan} {b : LineBuffer}

theorem isName_taps (hs : s.Worded) (hcons : s.Consistent) : ∀ t ∈ s.taps, IsName t.name := by
  intro t ht
  obtain ⟨⟨os, hos, -⟩, hname⟩ := Stencil.mem_taps.1 ht
  rw [hname]
  exact Offset.isName_tapName
    (hs.inputs _ ((hcons.mem_names t.var).1 (List.mem_map.2 ⟨_, hos, rfl⟩))) _

theorem isName_ports (hs : s.Worded) (hwf : s.WellFormed) (hcons : s.Consistent) :
    ∀ t ∈ ports target s, IsName t.name := by
  intro t ht
  unfold ports at ht
  rcases List.mem_append.1 ht with ht | ht
  · exact isName_taps hs hcons t ht
  · split at ht
    · cases List.mem_singleton.1 ht
      exact Offset.isName_tapName (hs.inputs _ (iteratedVar_mem hwf.inputs_ne)) _
    · cases ht

theorem isName_scalars (hs : s.Worded) (hcons : s.Consistent) : ∀ x ∈ s.scalars, IsName x := by
  intro x hx
  rw [hcons.scalars, Output.mem_freeNames] at hx
  obtain ⟨⟨e, he, hx⟩, -⟩ := hx
  exact (hs.expressions e he).leaves.2 x (Node.mem_vars_iff.2 hx)

theorem isName_forward (hs : s.Worded) (hwf : s.WellFormed) :
    ∀ f ∈ forward? target s, IsName f.tap := by
  intro f hf
  unfold forward? at hf
  split at hf
  · cases hf
  · cases hf
    exact Offset.isName_tapName (hs.inputs _ (iteratedVar_mem hwf.inputs_ne)) _

theorem isName_feed (range : StageRange) (iterated : String) (rowWords : Nat) {var : String}
    (h : IsName var) : IsName (feed plan range var iterated rowWords).endpoint.name := by
  unfold feed
  split
  · exact h
  · exact Plan.isName_channel _

theorem isName_stageOutput (hs : s.Worded) (range : StageRange) (rowWords : Nat) :
    IsName (stageOutput s range rowWords).1.name := by
  unfold stageOutput
  split
  · exact hs.output
  · exact hs.output
  · exact Plan.isName_channel _
  · exact Plan.isName_channel _

theorem stage_name {point : PointFunction} {forward : Option Forward} {range : StageRange}
    (h : Generate.stage target s plan point m forward range = .ok stage) :
    stage.name = range.name := by
  unfold Generate.stage at h
  obtain ⟨inits, -, h⟩ := bind_eq_ok.1 h
  obtain ⟨reads, -, h⟩ := bind_eq_ok.1 h
  obtain ⟨moves, -, h⟩ := bind_eq_ok.1 h
  obtain ⟨drained, -, h⟩ := bind_eq_ok.1 h
  cases h
  rfl

theorem pointFunction_name {f : PointFunction} (h : pointFunction s = .ok f) :
    f.name = s.kernelName ++ "_point" := by
  obtain ⟨lets, -, h⟩ := bind_eq_ok.1 h
  obtain ⟨result, -, h⟩ := bind_eq_ok.1 h
  cases h
  rfl

theorem isName_point {f : PointFunction} (hs : s.Worded) (hcons : s.Consistent)
    (h : pointFunction s = .ok f) : IsName f.name ∧ ∀ x ∈ f.params, IsName x := by
  rw [pointFunction_name h, (prints_of_pointFunction h).params]
  refine ⟨hs.kernelName.append (List.all_eq_true.1 rfl), fun x hx => ?_⟩
  rcases List.mem_append.1 hx with hx | hx
  · obtain ⟨t, ht, rfl⟩ := List.mem_map.1 hx
    exact isName_taps hs hcons t ht
  · exact isName_scalars hs hcons x hx

theorem Built.stage_worded (h : Built target s m plan design) (hs : s.Worded) (hwf : s.WellFormed)
    (hcons : s.Consistent) (hkernel : kernel ∈ design.kernels) (hstage : stage ∈ kernel.stages) :
    stage.Worded kernel := by
  have hpoint := isName_point hs hcons (h.point kernel hkernel)
  obtain ⟨n, hget⟩ := List.getElem?_of_mem hstage
  obtain ⟨-, hone⟩ := h.stage_at hkernel hget
  obtain ⟨-, hfeeds, houtput⟩ := stage_fields hone
  obtain ⟨inits, reads, moves, drained, hinits, hreads, hmoves, hdrained, hevents⟩ := stage_ok hone
  obtain ⟨b₀, -, hb₀, -⟩ := h.exists_buffer (iteratedVar_mem hwf.inputs_ne)
  obtain ⟨taps, rfl, htaps⟩ := laneReads_ok h.dims ⟨b₀, hb₀⟩ hreads
  have hvar {b : LineBuffer} (hb : b ∈ ordered s m) : IsName b.var := hs.inputs _ (h.var_mem hb)
  have hfeed {b : LineBuffer} (hb : b ∈ ordered s m) :
      IsName (feedOf target s plan (rangeOf plan n) b).endpoint.name :=
    isName_feed (rangeOf plan n) s.iteratedVar _ (hvar hb)
  refine ⟨?_, ?_, ?_, _, hevents taps rfl, rfl, rfl,
    StageCode.isName_events ?_ ?_ ?_ ?_ ?_ ?_ ?_ ?_ ?_⟩
  · rw [stage_name hone]
    exact StageRange.isName_name _
  · rw [hfeeds]
    exact List.forall_mem_map.2 fun b hb => hfeed hb
  · rw [houtput]
    exact isName_stageOutput hs ..
  · intro e he
    obtain ⟨b, hb, he⟩ := List.mem_flatMap.1 he
    exact (h.placed hb).laid.isName_storage (hvar hb) he
  · intro op hop
    obtain ⟨ops, hops, hop⟩ := List.mem_flatten.1 hop
    obtain ⟨b, hb, hinit⟩ := exists_left_of_forall₂ hinits hops
    exact LineBuffer.isName_init (h.placed hb).laid (hvar hb) (hfeed hb) hinit op hop
  · intro r hr
    obtain ⟨t, ht, hname, b, hget, hread⟩ := exists_left_of_forall₂ htaps hr
    have hb : b ∈ ordered s m := h.mem_ordered (mem_of_get? hget)
    exact ⟨hname ▸ isName_ports hs hwf hcons t ht, LineBuffer.isName_laneRead (hvar hb) hread⟩
  · exact hpoint.1
  · exact hpoint.2
  · intro x hx
    obtain ⟨f, hf, rfl⟩ := Option.mem_map.1 hx
    exact isName_forward hs hwf f hf
  · exact isName_stageOutput hs ..
  · intro op hop
    obtain ⟨ops, hops, hop⟩ := List.mem_flatten.1 hop
    obtain ⟨b, hb, hmove⟩ := exists_left_of_forall₂ hmoves hops
    exact LineBuffer.isName_advance (h.placed hb).laid (hvar hb) (hfeed hb) hmove op hop
  · intro op hop
    obtain ⟨ops, hops, hop⟩ := List.mem_flatten.1 hop
    obtain ⟨b, hb, hdrain⟩ := exists_left_of_forall₂ hdrained hops
    exact LineBuffer.isName_drains (h.placed hb).laid (hvar hb) (hfeed hb) hdrain op hop

end Generate

open Generate in
/-- All that is printed of a kernel is made of words. -/
theorem worded_of_compileSource {source : String} {target : Accelerator} {design : Design}
    (h : compileSource source target = .ok design) {k : Kernel} (hk : k ∈ design.kernels) :
    k.Worded design := by
  obtain ⟨s, hs, hd⟩ := bind_eq_ok.1 h
  have hworded := worded_of_analyzeSource hs
  obtain ⟨q, hq, hs⟩ := bind_eq_ok.1 hs
  obtain ⟨p, hp, hs⟩ := bind_eq_ok.1 hs
  have hcons := Analysis.consistent_of_analyze (Surface.Program.proper_of_lower hp) hs
  have hwf := Analysis.wellFormed_of_run hs
  obtain ⟨m, plan, hbuilt⟩ := built_of_generate hd
  have hprints := prints_of_pointFunction (hbuilt.point k hk)
  have hpoint := isName_point hworded hcons (hbuilt.point k hk)
  have hbody : ∀ e ∈ s.body.expressions, inert functionNames (atoms e.text) = true := by
    rw [Stencil.body, Output.expressions_mapRefs]
    refine List.forall_mem_map.2 fun e he => Node.inert_text ?_
    exact (hworded.expressions e he).mapRefs (fun _ hx => hx)
      fun r hr => Offset.isName_tapName hr _
  have hbound : ∀ x ∈ s.body.boundNames, IsName x := by
    rw [Stencil.body, Output.boundNames_mapRefs]
    exact hworded.bound
  exact {
    app := by
      rw [hbuilt.header]
      exact hworded.kernelName
    point := hpoint.1
    params := hpoint.2
    scalars := by
      rw [hprints.scalars]
      exact isName_scalars hworded hcons
    lets := by
      rw [hprints.lets]
      refine List.forall_mem_map.2 fun b hb => ⟨hbound _ (List.mem_map_of_mem hb), ?_⟩
      exact hbody _ (List.mem_append_left _ (List.mem_map_of_mem hb))
    result := by
      rw [hprints.result]
      exact hbody _ (List.mem_append_right _ List.mem_cons_self)
    buffers := by
      rw [hbuilt.buffers]
      exact fun b hb => hworded.inputs _ (hbuilt.var_mem hb)
    buffers_ne := by
      obtain ⟨b, -, -, -, hb, -⟩ := hbuilt.exists_buffer (iteratedVar_mem hwf.inputs_ne)
      rw [hbuilt.buffers]
      exact List.ne_nil_of_mem hb
    output := by
      rw [hbuilt.outputVar_eq hwf.inputs_ne hk]
      exact hworded.output
    channels := by
      rw [hbuilt.channels k hk]
      exact List.forall_mem_map.2 fun i _ => Plan.isName_channel i
    stages := fun stage hstage => hbuilt.stage_worded hworded hwf hcons hk hstage }

end GridSweep
