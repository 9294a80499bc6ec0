import GridSweep.Proofs.Kernel.PrintedEvents

/-!
# The functions and calls of a printed kernel

`kernelApplications` lists the functions that a kernel's text defines and the calls of them, in the
order of the text. `found_kernelText` says that a reader of the text finds exactly these.
-/

namespace GridSweep.KernelText

open CText

/-! ## What the parts define and call -/

/-- The functions of a kernel's text. -/
def functions (k : Kernel) : List String :=
  ["lane", "lane_bits", k.point.name] ++ k.stages.map (·.name) ++ ["backbone", "exchange", k.name]

def laneApplication (d : Design) : Application :=
  ⟨0, "lane",
    [.word "const" :: ((wordPieces d).flatMap Piece.read ++ [Atom.mark '&', Atom.word "w"]),
    [.word "int", .word "low"]]⟩

def laneBitsApplication : Application := ⟨0, "lane_bits", [[.word "float", .word "v"]]⟩

def stageApplications (d : Design) (k : Kernel) (s : Stage) : List Application :=
  (stageSignature d k s).application :: eventsCalls (stageTaps s) 0 s.events

def backboneApplications (d : Design) (k : Kernel) : List Application :=
  (backboneSignature d k).application ::
    k.stages.zipIdx.map fun p => (stageCall d k p.1 p.2).application 1

def exchangeApplications (d : Design) (k : Kernel) : List Application :=
  k.exchange.toList.map fun e => (exchangeSignature d e).application

/-- The variable that the sweeps read and write in turn with the output. -/
def iteratedBuffer (d : Design) : String := (d.buffers.getLast?.map (·.var)).getD ""

def sweepApplications (d : Design) (k : Kernel) (reads writes : String) : List Application :=
  (backboneCall d k (iteratedBuffer d) reads writes).application 3 ::
    k.exchange.toList.map fun e => (exchangeCall e writes).application 3

def interfaceApplications (d : Design) (k : Kernel) : List Application :=
  (interfaceSignature d k).application ::
    (sweepApplications d k (iteratedBuffer d) (outputVar d k) ++
      sweepApplications d k (outputVar d k) (iteratedBuffer d))

def kernelApplications (d : Design) (k : Kernel) : List Application :=
  [laneApplication d, laneBitsApplication, (pointSignature k.point).application] ++
    (k.stages.flatMap (stageApplications d k) ++
      (backboneApplications d k ++ (exchangeApplications d k ++ interfaceApplications d k)))

/-! ## Reading the parts -/

variable {names : List String} {depth : Nat} {apps : List Application} {d : Design} {k : Kernel}

theorem contributes_map {α : Type} {xs : List α} {line : α → String} {g : α → List Application}
    (h : ∀ x ∈ xs, Contributes names depth (atoms (line x)) depth (g x)) :
    Contributes names depth (lineAtoms (xs.map line)) depth (xs.flatMap g) := by
  unfold lineAtoms
  rw [List.flatMap_map]
  exact Contributes.flatMap h

theorem contributes_flatMap {α : Type} {xs : List α} {lines : α → List String}
    {g : α → List Application}
    (h : ∀ x ∈ xs, Contributes names depth (lineAtoms (lines x)) depth (g x)) :
    Contributes names depth (lineAtoms (xs.flatMap lines)) depth (xs.flatMap g) := by
  unfold lineAtoms
  rw [List.flatMap_assoc]
  exact Contributes.flatMap h

theorem contributes_silent {α : Type} {xs : List α} {lines : α → List String}
    (h : ∀ x ∈ xs, Contributes names depth (lineAtoms (lines x)) depth []) :
    Contributes names depth (lineAtoms (xs.flatMap lines)) depth [] := by
  have hall := contributes_flatMap h
  rwa [List.flatMap_eq_nil_iff.2 fun _ _ => rfl] at hall

/-- Outside all braces, a line without words in front of parentheses. -/
theorem contributes_directive {line : String} (ps : List Piece) (hline : line = Piece.join ps)
    (hquiet : quietPieces [] ps = true) : Contributes names depth (atoms line) depth [] :=
  contributes_line ps (fun _ hw => absurd hw List.not_mem_nil) hline hquiet

theorem contributes_preamble (happ : IsName d.header.appName) :
    Contributes names 0 (lineAtoms (preamble d k)) 0 [] := by
  have hcomment : Contributes names 0 (atoms s!"// {k.name} for '{d.header.appName}'") 0 [] :=
    contributes_directive [.text "// ", .name k.name k.role.isName_kernelName, .text " for '",
      .name d.header.appName happ, .text "'"] rfl rfl
  have hheader : Contributes names 0 (atoms s!"#include \"{d.header.appName}.h\"") 0 [] :=
    contributes_directive [.text "#include \"", .name d.header.appName happ, .text ".h\""] rfl rfl
  exact contributes_cons hcomment (contributes_cons (contributes_text rfl)
    (contributes_cons (contributes_text rfl) (contributes_cons (contributes_text rfl)
      (contributes_cons hheader (contributes_one contributes_nil)))))

/-- The union of an integer and a float, whose braces are in one line. -/
theorem contributes_union : Contributes names depth
    (atoms "union \x7b unsigned int u; float f; \x7d bits;") depth [] where
  starts := by decide
  found_append _ _ _ := rfl

theorem wordless_void : wordless "static void" = true := rfl

/-! ## Parameters and arguments -/

theorem plain_stageParams (hk : k.Worded d) {s : Stage} (hs : s ∈ k.stages) :
    ∀ p ∈ stageParams d k s, p.Plain := by
  have hstage := hk.stages s hs
  have hends : ∀ e ∈ s.feeds.map (·.2.endpoint) ++ [s.output], IsName e.name := by
    simp only [List.mem_append, List.mem_map, List.mem_singleton]
    rintro e (⟨f, hf, rfl⟩ | rfl)
    · exact hstage.feeds f hf
    · exact hstage.output
  intro p hp
  simp only [stageParams, List.mem_append, List.mem_map, Ordered.mem_ofList, List.mem_filter] at hp
  rcases hp with ((⟨_, ⟨e, ⟨he, -⟩, rfl⟩, rfl⟩ | ⟨_, ⟨e, ⟨he, -⟩, rfl⟩, rfl⟩) | ⟨x, hx, rfl⟩) | hp
  · exact plain_memoryParam (hends e (by simpa using he))
  · exact plain_streamParam (hends e (by simpa using he))
  · exact plain_floatParam (hk.scalars x hx)
  · split at hp
    · cases List.mem_singleton.1 hp
      exact plain_flag (by decide)
    · cases hp

theorem isName_skip (i : Nat) : IsName s!"skip_{i}" :=
  IsName.append (by decide : IsName "skip_") (isName_toString i).2

theorem plain_dataParams (hk : k.Worded d) : ∀ p ∈ dataParams d k, p.Plain := by
  intro p hp
  simp only [dataParams, List.mem_append, List.mem_map, List.mem_singleton] at hp
  rcases hp with (⟨b, hb, rfl⟩ | rfl) | ⟨x, hx, rfl⟩
  · exact plain_memoryParam (hk.buffers b hb)
  · exact plain_memoryParam hk.output
  · exact plain_floatParam (hk.scalars x hx)

theorem plain_backboneParams (hk : k.Worded d) : ∀ p ∈ backboneParams d k, p.Plain := by
  intro p hp
  rcases List.mem_append.1 hp with hp | hp
  · exact plain_dataParams hk p hp
  · split at hp
    · obtain ⟨i, -, rfl⟩ := List.mem_map.1 hp
      exact plain_flag (isName_skip i)
    · cases hp

theorem Param.Plain.argument_eq {p : Param} (h : p.Plain) : p.argument = p.name := by
  have hall : ∀ c ∈ p.name.toList.reverse, decide (c ≠ ' ' ∧ c ≠ '*' ∧ c ≠ '&') = true := by
    intro c hc
    have hpart := h.name.2 c (List.mem_reverse.1 hc)
    rw [decide_eq_true_eq]
    refine ⟨?_, ?_, ?_⟩ <;> rintro rfl <;> revert hpart <;> decide
  rw [Param.argument, List.takeWhile_eq_self_iff.2 hall, List.reverse_reverse, String.ofList_toList]

/-- What a stage is called with are names. -/
theorem isName_stageCall (hk : k.Worded d) {s : Stage} (hs : s ∈ k.stages) (i : Nat) :
    ∀ a ∈ (stageCall d k s i).args, IsName a := by
  have hargs : ∀ a ∈ (stageParams d k s).map (·.argument), IsName a := by
    refine List.forall_mem_map.2 fun p hp => ?_
    have hp := plain_stageParams hk hs p hp
    exact hp.argument_eq ▸ hp.name
  intro a ha
  unfold stageCall at ha
  split at ha
  · rcases List.mem_append.1 ha with ha | ha
    · exact hargs a (List.dropLast_subset _ ha)
    · cases List.mem_singleton.1 ha
      exact isName_skip i
  · exact hargs a ha

theorem isName_iteratedBuffer (hk : k.Worded d) : IsName (iteratedBuffer d) := by
  rw [iteratedBuffer, List.getLast?_eq_some_getLast hk.buffers_ne]
  exact hk.buffers _ (List.getLast_mem hk.buffers_ne)

theorem isName_streamName (n : Neighbor) (t : Transfer) : IsName (streamName n t) := by
  cases n <;> cases t <;> decide

theorem isName_exchangeStreams (e : ExchangeProtocol) : ∀ x ∈ exchangeStreams e, IsName x := by
  intro x hx
  obtain ⟨⟨n, t⟩, -, hx⟩ := List.mem_filterMap.1 hx
  obtain ⟨-, hx⟩ := Option.ite_none_right_eq_some.1 hx
  cases hx
  exact isName_streamName n t

theorem plain_interface (hk : k.Worded d) : ∀ p ∈ (interfaceSignature d k).params, p.Plain := by
  intro p hp
  rcases List.mem_append.1 hp with hp | hp
  · exact plain_dataParams hk p hp
  · obtain ⟨x, hx, rfl⟩ := List.mem_map.1 hp
    unfold kernelStreams at hx
    split at hx
    · exact plain_streamParam (isName_exchangeStreams _ x hx)
    · cases hx

/-- A call with a semicolon behind it. -/
theorem contributes_statement {c : Call} (hname : IsName c.function) (hf : c.function ∈ names)
    (hflat : ∀ a ∈ c.args, flat (atoms a) = true) (hone : c.args.map atoms ≠ [[]]) :
    Contributes names depth (atoms (c.text ++ ";")) depth [c.application depth] := by
  rw [atoms_append (Bool.or_eq_true_iff.2 (.inr rfl))]
  exact (contributes_call hname hf hflat hone).append (contributes_text rfl)

theorem flat_of_isName {x : String} (h : IsName x) : flat (atoms x) = true := by
  rw [h.atoms_eq]
  rfl

theorem atoms_ne_of_isName {x : String} (h : IsName x) : atoms x ≠ [] := by simp [h.atoms_eq]

/-- What the backbone is called with stays in its place. -/
theorem atoms_backboneCall (hk : k.Worded d) {reads writes : String} (iterated : String)
    (hreads : IsName reads) (hwrites : IsName writes) :
    ∀ a ∈ (backboneCall d k iterated reads writes).args,
      flat (atoms a) = true ∧ atoms a ≠ [] := by
  have hword {x : String} (h : IsName x) : flat (atoms x) = true ∧ atoms x ≠ [] :=
    ⟨flat_of_isName h, atoms_ne_of_isName h⟩
  intro a ha
  simp only [backboneCall, List.mem_append, List.mem_map, List.mem_singleton] at ha
  rcases ha with ((⟨b, hb, rfl⟩ | rfl) | ha) | ha
  · split
    · exact hword hreads
    · exact hword (hk.buffers b hb)
  · exact hword hwrites
  · exact hword (hk.scalars a ha)
  · split at ha
    · obtain ⟨i, -, rfl⟩ := List.mem_map.1 ha
      rw [show atoms s!"SKIPS[sweep][{i}]" = _ from
        Piece.atoms_join [.text "SKIPS[sweep][", .number i, .text "]"] rfl]
      exact ⟨rfl, List.cons_ne_nil _ _⟩
    · cases ha

section

variable (hwords : ∀ w ∈ quietWords, w ∉ names)
include hwords

omit hwords in
theorem contributes_laneHead : Contributes names 0
    (atoms s!"static inline float lane(const {wordType d} &w, int low)") 0
    [laneApplication d] := by
  have hfront : atoms "static inline float lane(const " =
      atoms "static inline float " ++ [Atom.word "lane", .mark '(', .word "const"] := rfl
  have hback : atoms " &w, int low)" =
      [.mark '&', .word "w", .mark ',', .word "int", .word "low", .mark ')'] := rfl
  have hhead : atoms s!"static inline float lane(const {wordType d} &w, int low)" =
      atoms "static inline float " ++ applied "lane" (laneApplication d).args := by
    rw [show atoms s!"static inline float lane(const {wordType d} &w, int low)" = _ from
      Piece.atoms_join [.text "static inline float lane(const ",
        .hole (wordType d) _ (atoms_wordType d), .text " &w, int low)"] rfl]
    simp [Piece.read, hfront, hback, laneApplication, applied, separated_cons_cons,
      separated_singleton]
  have hargs : ∀ a ∈ (laneApplication d).args, flat a = true := List.all_eq_true.1 rfl
  rw [hhead]
  exact (contributes_text rfl).append
    (contributes_applied (.inl rfl) hargs (by simp [laneApplication]))

omit hwords in
theorem contributes_laneBitsHead : Contributes names 0
    (atoms "static inline unsigned int lane_bits(float v)") 0 [laneBitsApplication] := by
  have hhead : atoms "static inline unsigned int lane_bits(float v)" =
      atoms "static inline unsigned int " ++ applied "lane_bits" laneBitsApplication.args := rfl
  have hargs : ∀ a ∈ laneBitsApplication.args, flat a = true := by decide
  rw [hhead]
  exact (contributes_text rfl).append
    (contributes_applied (.inl rfl) hargs (by simp [laneBitsApplication]))

theorem contributes_laneHelpers : Contributes names 0 (lineAtoms (laneHelpers d)) 0
    [laneApplication d, laneBitsApplication] := by
  have hrange : Contributes names 1 (atoms s!"bits.u = w.range(low + {laneBits - 1}, low);") 1 [] :=
    contributes_quietLine hwords [.text "bits.u = w.range(low + ",
      .name (toString (laneBits - 1)) (isName_toString_int (by decide)), .text ", low);"] rfl rfl
  have hblank : Contributes names 0 (lineAtoms [""]) 0 [] := contributes_nil
  have hfirst := contributes_block (contributes_laneHead (d := d)) (contributes_cons
    contributes_union (contributes_cons hrange
      (contributes_one (contributes_text (s := "return bits.f;") rfl))))
  have hbits : Contributes names 1 (atoms "bits.f = v;") 1 [] := contributes_text rfl
  have hsecond := contributes_block contributes_laneBitsHead (contributes_cons contributes_union
    (contributes_cons hbits (contributes_one (contributes_text (s := "return bits.u;") rfl))))
  rw [laneHelpers, lineAtoms_append, lineAtoms_append, lineAtoms_append]
  exact ((hfirst.append hblank).append hsecond).append hblank

theorem contributes_pointFunction (hk : k.Worded d) :
    Contributes names 0 (lineAtoms (pointFunction k.point)) 0
      [(pointSignature k.point).application] := by
  have hmono {as : List Atom} (h : inert functionNames as = true) : inert quietWords as = true :=
    inert_mono (fun w hw => List.mem_append_right _ hw) h
  have hlets : Contributes names 1 (lineAtoms (k.point.lets.map fun l =>
      s!"float {l.1} = {l.2};")) 1 [] := by
    rw [List.map_eq_flatMap]
    refine contributes_silent fun l hl => contributes_one ?_
    obtain ⟨hname, hvalue⟩ := hk.lets l hl
    exact contributes_framed hwords [.text "float ", .name l.1 hname, .text " = "] rfl
      (hmono hvalue) rfl rfl
  have hreturn : Contributes names 1 (lineAtoms [s!"return {k.point.result};"]) 1 [] :=
    contributes_one (contributes_framed hwords [.text "return "] rfl (hmono hk.result) rfl rfl)
  have hbody := hlets.append hreturn
  rw [← lineAtoms_append] at hbody
  exact contributes_definition hk.point (show wordless "static float" = true from rfl)
    (List.forall_mem_map.2 fun x hx => plain_floatParam (hk.params x hx)) hbody

theorem contributes_stageFunction (hk : k.Worded d) (hnames : ∀ f ∈ functions k, f ∈ names)
    {s : Stage} (hs : s ∈ k.stages) :
    Contributes names 0 (lineAtoms (stageFunction d k s)) 0 (stageApplications d k s) := by
  have hstage := hk.stages s hs
  obtain ⟨p, hevents, hfunction, -, hwritten⟩ := hstage.code
  have hcalls : ∀ e ∈ s.events, Event.Calls names e := by
    rw [hevents]
    intro e he
    simp only [StageCode.events, List.mem_append, List.mem_cons, List.mem_map] at he
    rcases he with ⟨x, -, rfl⟩ | ⟨x, -, rfl⟩ | rfl | ⟨r, -, rfl⟩ | rfl | rfl | ⟨x, -, rfl⟩ | rfl |
      ⟨x, -, rfl⟩
    · trivial
    · trivial
    · trivial
    · exact hnames "lane" (by simp [functions])
    · exact ⟨hnames "lane_bits" (by simp [functions]), hnames _ (by simp [functions, hfunction])⟩
    · trivial
    · trivial
    · trivial
    · trivial
  rw [← hevents] at hwritten
  refine contributes_definition hstage.name wordless_void (plain_stageParams hk hs) ?_
  refine contributes_eventsLines hwords hwritten hcalls ?_
  rw [hevents]
  exact nested_events p

theorem contributes_backbone (hk : k.Worded d) (hnames : ∀ f ∈ functions k, f ∈ names) :
    Contributes names 0 (lineAtoms (backbone d k)) 0 (backboneApplications d k) := by
  have hpragma : Contributes names 1 (lineAtoms ["#pragma HLS dataflow"]) 1 [] :=
    contributes_one (contributes_text rfl)
  have hchannels : Contributes names 1 (lineAtoms (k.channels.flatMap (channelLines d))) 1 [] :=
    contributes_silent fun c hc => contributes_channel hwords (hk.channels c hc) _
  have hcalls : Contributes names 1
      (lineAtoms (k.stages.zipIdx.map fun p => (stageCall d k p.1 p.2).text ++ ";")) 1
      (k.stages.zipIdx.flatMap fun p => [(stageCall d k p.1 p.2).application 1]) := by
    refine contributes_map fun p hp => ?_
    have hs : p.1 ∈ k.stages := List.fst_mem_of_mem_zipIdx hp
    have hargs := isName_stageCall hk hs p.2
    refine contributes_statement (hk.stages p.1 hs).name (hnames _ ?_)
      (fun a ha => flat_of_isName (hargs a ha))
      (map_atoms_ne fun a ha => atoms_ne_of_isName (hargs a ha))
    exact List.mem_append_left _ (List.mem_append_right _ (List.mem_map_of_mem hs))
  have hbody := (hpragma.append hchannels).append hcalls
  rw [← lineAtoms_append, ← lineAtoms_append, ← List.map_eq_flatMap] at hbody
  exact contributes_definition (show IsName "backbone" by decide) wordless_void
    (plain_backboneParams hk) hbody

theorem contributes_exchangeFunction (e : ExchangeProtocol) :
    Contributes names 0 (lineAtoms (exchangeFunction d e)) 0
      [(exchangeSignature d e).application] := by
  have hsteps : Contributes names 1 (lineAtoms (e.steps.flatMap (exchangeStepLines e))) 1 [] := by
    refine contributes_silent fun s _ => contributes_pipelined (contributes_quietLine hwords
      [.text "for (int x = 0; x < ", .number (e.words s), .text "; x++)"] rfl rfl) ?_
    cases s.transfer with
    | send =>
      exact contributes_quietLine hwords [.name _ (isName_streamName s.neighbor .send),
        .text ".write(buf[", .number (s.firstRow * e.wordsPerRow), .text " + x]);"] rfl rfl
    | receive =>
      exact contributes_quietLine hwords [.text "buf[", .number (s.firstRow * e.wordsPerRow),
        .text " + x] = ", .name _ (isName_streamName s.neighbor .receive), .text ".read();"] rfl rfl
  refine contributes_definition (show IsName "exchange" by decide) wordless_void ?_ hsteps
  refine List.forall_mem_cons.2 ⟨plain_memoryParam (by decide), ?_⟩
  exact List.forall_mem_map.2 fun x hx => plain_streamParam (isName_exchangeStreams e x hx)

omit hwords in
theorem contributes_braceList {items : List String}
    (h : ∀ x ∈ items, Contributes names (depth + 1) (atoms x) (depth + 1) []) :
    Contributes names depth (atoms (braceList items)) depth [] := by
  have hinside : Contributes names (depth + 1) (separated (items.map atoms)) (depth + 1) [] :=
    contributes_separated (List.forall_mem_map.2 h)
  rw [braceList, atoms_append (Bool.or_eq_true_iff.2 (.inr rfl)),
    atoms_append (Bool.or_eq_true_iff.2 (.inl rfl)), atoms_commas]
  exact (contributes_open.append hinside).append contributes_close

omit hwords in
theorem contributes_skipTable : Contributes names depth (lineAtoms (skipTable d k)) depth [] := by
  unfold skipTable
  split
  · let rows := k.schedule.sweeps.map fun s =>
      braceList (s.skips.map fun skip => if skip then "true" else "false")
    have hrows : Contributes names depth (atoms (braceList rows)) depth [] := by
      refine contributes_braceList (List.forall_mem_map.2 fun s _ => ?_)
      refine contributes_braceList (List.forall_mem_map.2 fun skip _ => ?_)
      cases skip <;> exact contributes_text rfl
    let line : List Piece := [.text "static const bool SKIPS[", .number rows.length, .text "][",
      .number d.header.stageCount, .text "] = ", .hole (braceList rows) _ rfl, .text ";"]
    have hline : Contributes names depth (atoms (Piece.join line)) depth [] := by
      rw [Piece.atoms_join line rfl]
      exact (contributes_text rfl).append ((contributes_word _).append
        ((contributes_text rfl).append ((contributes_word _).append
          ((contributes_text rfl).append (hrows.append
            ((contributes_text rfl).append contributes_nil))))))
    exact contributes_one hline
  · exact contributes_nil

omit hwords in
theorem contributes_backboneCall (hk : k.Worded d) (hmem : "backbone" ∈ names)
    {iterated reads writes : String} (hreads : IsName reads) (hwrites : IsName writes) :
    Contributes names depth (atoms ((backboneCall d k iterated reads writes).text ++ ";")) depth
      [(backboneCall d k iterated reads writes).application depth] := by
  have hargs := atoms_backboneCall hk iterated hreads hwrites
  exact contributes_statement (show IsName "backbone" by decide) hmem (fun a ha => (hargs a ha).1)
    (map_atoms_ne fun a ha => (hargs a ha).2)

omit hwords in
theorem contributes_exchangeCall (hmem : "exchange" ∈ names) {buffer : String} (h : IsName buffer)
    (e : ExchangeProtocol) : Contributes names depth (atoms ((exchangeCall e buffer).text ++ ";"))
      depth [(exchangeCall e buffer).application depth] := by
  have hstreams : ∀ a ∈ streamArguments e, flat (atoms a) = true := by
    intro a ha
    unfold streamArguments at ha
    split at ha
    · cases List.mem_singleton.1 ha
      rfl
    · exact flat_of_isName (isName_exchangeStreams e a ha)
  refine contributes_statement (show IsName "exchange" by decide) hmem
    (List.forall_mem_cons.2 ⟨flat_of_isName h, hstreams⟩) fun hone => ?_
  exact atoms_ne_of_isName h (List.cons.inj hone).1

theorem contributes_exchangeLines (hmem : "exchange" ∈ names) {buffer : String}
    (h : IsName buffer) :
    Contributes names (depth + 1) (lineAtoms (exchangeLines k buffer)) (depth + 1)
      (k.exchange.toList.map fun e => (exchangeCall e buffer).application (depth + 1)) := by
  unfold exchangeLines
  cases k.exchange with
  | none => exact contributes_nil
  | some e =>
    let front : List Piece :=
      [.text "if (sweep + 1 < ", .number k.schedule.sweeps.length, .text ") "]
    have hfront : Contributes names (depth + 1) (atoms (Piece.join front)) (depth + 1) [] :=
      contributes_quietLine hwords front rfl rfl
    have hline : atoms (Piece.join front ++ (exchangeCall e buffer).text ++ ";") =
        atoms (Piece.join front) ++ atoms ((exchangeCall e buffer).text ++ ";") := by
      rw [String.append_assoc]
      exact atoms_append (Bool.or_eq_true_iff.2 (.inl (Piece.closes_append (p := .text ") ") rfl)))
    have hif := hfront.append (contributes_exchangeCall hmem h e)
    rw [← hline] at hif
    exact contributes_one hif

theorem contributes_sweepLines (hk : k.Worded d) (hnames : ∀ f ∈ functions k, f ∈ names)
    {reads writes : String} (hreads : IsName reads) (hwrites : IsName writes) :
    Contributes names 3 (lineAtoms (sweepLines d k (iteratedBuffer d) reads writes)) 3
      (sweepApplications d k reads writes) := by
  have hbackbone : "backbone" ∈ names := hnames _ (by simp [functions])
  have hexchange : "exchange" ∈ names := hnames _ (by simp [functions])
  rw [sweepLines, lineAtoms_append]
  exact (contributes_one (contributes_backboneCall hk hbackbone hreads hwrites)).append
    (contributes_exchangeLines hwords hexchange hwrites)

/-- The two branches of a sweep, for the even and for the odd ones. -/
theorem contributes_branches {even odd : List String} {apps apps' : List Application}
    (heven : Contributes names (depth + 2) (lineAtoms even) (depth + 2) apps)
    (hodd : Contributes names (depth + 2) (lineAtoms odd) (depth + 2) apps') :
    Contributes names (depth + 1) (lineAtoms (["if (sweep % 2 == 0) \x7b"] ++ indent even ++
      ["\x7d else \x7b"] ++ indent odd ++ ["\x7d"])) (depth + 1) (apps ++ apps') := by
  have hif : Contributes names (depth + 1) (lineAtoms ["if (sweep % 2 == 0) \x7b"])
      (depth + 2) [] := by
    have hhead : Contributes names (depth + 1) (atoms "if (sweep % 2 == 0)") (depth + 1) [] :=
      contributes_quietLine hwords [.text "if (sweep % 2 == 0)"] rfl rfl
    exact contributes_one (hhead.append contributes_open)
  have helse : Contributes names (depth + 2) (lineAtoms ["\x7d else \x7b"]) (depth + 2) [] :=
    contributes_one ((contributes_close.append (contributes_word "else")).append contributes_open)
  have hend : Contributes names (depth + 2) (lineAtoms ["\x7d"]) (depth + 1) [] :=
    contributes_one contributes_close
  have hall := (((hif.append heven).append helse).append hodd).append hend
  simp only [List.nil_append, List.append_nil] at hall
  simpa only [lineAtoms_append, lineAtoms_indent] using hall

theorem contributes_interface (hk : k.Worded d) (hnames : ∀ f ∈ functions k, f ∈ names) :
    Contributes names 0 (lineAtoms (interface d k)) 0 (interfaceApplications d k) := by
  have hiterated := isName_iteratedBuffer hk
  have hsweeps := contributes_branches hwords
    (contributes_sweepLines hwords hk hnames hiterated hk.output)
    (contributes_sweepLines hwords hk hnames hk.output hiterated)
  have hfor : Contributes names 1
      (atoms s!"for (int sweep = 0; sweep < {k.schedule.sweeps.length}; sweep++)") 1 [] :=
    contributes_quietLine hwords [.text "for (int sweep = 0; sweep < ",
      .number k.schedule.sweeps.length, .text "; sweep++)"] rfl rfl
  have hsignature : Contributes names 0 (atoms (interfaceSignature d k).text) 0
      [(interfaceSignature d k).application] :=
    contributes_signature k.role.isName_kernelName
      (show wordless "extern \"C\" void" = true from rfl) (plain_interface hk)
  have htable : Contributes names 1 (lineAtoms (skipTable d k)) 1 [] := contributes_skipTable
  have hbody := htable.append (contributes_block hfor hsweeps)
  rw [← lineAtoms_append] at hbody
  exact contributes_block hsignature hbody

end

/-- The function that exchanges rows, if there is one. -/
def exchangeText (d : Design) (k : Kernel) : List String :=
  k.exchange.toList.flatMap (exchangeFunction d)

theorem kernelText_eq (d : Design) (k : Kernel) : d.kernelText k =
    unlines (preamble d k ++ laneHelpers d ++ pointFunction k.point ++
      k.stages.flatMap (stageFunction d k) ++ backbone d k ++ exchangeText d k ++
      interface d k) := by
  unfold Design.kernelText exchangeText
  cases k.exchange with
  | none => rfl
  | some e => simp

/-- A reader of a kernel's text finds its definitions and the calls of them. -/
theorem found_kernelText (hk : k.Worded d) (hwords : ∀ w ∈ quietWords, w ∉ functions k) :
    found (functions k) 0 none (atoms (d.kernelText k)) = kernelApplications d k := by
  have hnames : ∀ f ∈ functions k, f ∈ functions k := fun f hf => hf
  have hpreamble : Contributes (functions k) 0 (lineAtoms (preamble d k)) 0 [] :=
    contributes_preamble hk.app
  have hlanes : Contributes (functions k) 0 (lineAtoms (laneHelpers d)) 0
      [laneApplication d, laneBitsApplication] := contributes_laneHelpers hwords
  have hhead := (hpreamble.append hlanes).append (contributes_pointFunction hwords hk)
  have hstages : Contributes (functions k) 0 (lineAtoms (k.stages.flatMap (stageFunction d k))) 0
      (k.stages.flatMap (stageApplications d k)) :=
    contributes_flatMap fun s hs => contributes_stageFunction hwords hk hnames hs
  have hexchange : Contributes (functions k) 0 (lineAtoms (exchangeText d k)) 0
      (exchangeApplications d k) := by
    unfold exchangeText exchangeApplications
    rw [List.map_eq_flatMap]
    exact contributes_flatMap fun e _ => contributes_exchangeFunction hwords e
  have hall := hhead.append (hstages.append ((contributes_backbone hwords hk hnames).append
    (hexchange.append (contributes_interface hwords hk hnames))))
  have hfound := hall.found_append none [] (by simp)
  rw [List.append_nil] at hfound
  rw [kernelText_eq, atoms_unlines]
  simp only [lineAtoms_append, List.append_assoc] at hfound ⊢
  rw [hfound]
  simp [kernelApplications, found, applicationsFrom]

end GridSweep.KernelText
