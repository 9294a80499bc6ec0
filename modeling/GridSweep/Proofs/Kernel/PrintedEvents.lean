import GridSweep.Proofs.Kernel.Wording

/-!
# The calls of a printed stage

What the parts of a kernel's text contribute to its definitions and calls: lines and blocks, heads
of functions and calls (`contributes_definition`, `contributes_call`), and the events of a stage.
`eventsCalls` lists the calls of events, and `contributes_eventsLines` says that a reader of their
lines finds exactly these.
-/

namespace GridSweep

/-- A number filled in. -/
def CText.Piece.number (n : Nat) : CText.Piece := .name (toString n) (isName_toString n)

namespace KernelText

open CText

/-- Words in front of parentheses that are no functions of the text. -/
def quietWords : List String := ["for", "if", "return", "read", "write", "range"] ++ functionNames

variable {names : List String} {depth : Nat} {apps apps' : List Application}

/-! ## Lines and blocks -/

theorem lineAtoms_append (ls ls' : List String) :
    lineAtoms (ls ++ ls') = lineAtoms ls ++ lineAtoms ls' := List.flatMap_append

theorem lineAtoms_cons (l : String) (ls : List String) :
    lineAtoms (l :: ls) = atoms l ++ lineAtoms ls := rfl

theorem contributes_cons {l : String} {ls : List String} {d d' d'' : Nat}
    (hl : Contributes names d (atoms l) d' apps)
    (hls : Contributes names d' (lineAtoms ls) d'' apps') :
    Contributes names d (lineAtoms (l :: ls)) d'' (apps ++ apps') := hl.append hls

theorem contributes_one {l : String} {d d' : Nat} (hl : Contributes names d (atoms l) d' apps) :
    Contributes names d (lineAtoms [l]) d' apps := by
  rwa [lineAtoms_cons, show lineAtoms [] = [] from rfl, List.append_nil]

theorem lineAtoms_indent (ls : List String) : lineAtoms (indent ls) = lineAtoms ls := by
  unfold lineAtoms indent
  rw [List.flatMap_map]
  congr 1
  funext l
  exact atoms_append (Bool.or_eq_true_iff.2 (.inl rfl))

theorem lineAtoms_repeat_indent (n : Nat) (ls : List String) :
    lineAtoms (Nat.repeat indent n ls) = lineAtoms ls := by
  induction n with
  | zero => rfl
  | succ n ih => rw [Nat.repeat, lineAtoms_indent, ih]

theorem lineAtoms_block (head : String) (body : List String) :
    lineAtoms (block head body) =
      atoms head ++ (Atom.mark '\x7b' :: (lineAtoms body ++ [Atom.mark '\x7d'])) := by
  have hhead : atoms (head ++ " \x7b") = atoms head ++ [Atom.mark '\x7b'] :=
    atoms_append (Bool.or_eq_true_iff.2 (.inr rfl))
  rw [block, lineAtoms_append, lineAtoms_append, lineAtoms_indent, lineAtoms_cons, hhead]
  simp [lineAtoms, show atoms "\x7d" = [.mark '\x7d'] from rfl]

theorem contributes_open : Contributes names depth [.mark '\x7b'] (depth + 1) [] where
  starts := by simp
  found_append _ _ _ := rfl

theorem contributes_close : Contributes names (depth + 1) [.mark '\x7d'] depth [] where
  starts := by simp
  found_append _ _ _ := rfl

theorem contributes_block {head : String} {body : List String}
    (hhead : Contributes names depth (atoms head) depth apps)
    (hbody : Contributes names (depth + 1) (lineAtoms body) (depth + 1) apps') :
    Contributes names depth (lineAtoms (block head body)) depth (apps ++ apps') := by
  rw [lineAtoms_block]
  have hinside := (contributes_open.append hbody).append contributes_close
  rw [List.nil_append, List.append_nil] at hinside
  exact hhead.append hinside

/-- A text with no word in front of a parenthesis. -/
def wordless (s : String) : Bool := inert [] (atoms s) && (atoms s).head? ≠ some (.mark '(')

theorem contributes_text {s : String} (h : wordless s = true) :
    Contributes names depth (atoms s) depth [] := by
  simp only [wordless, Bool.and_eq_true, decide_eq_true_eq] at h
  exact contributes_wordless h.2 h.1

theorem contributes_word (x : String) : Contributes names depth [.word x] depth [] :=
  contributes_wordless (by simp) rfl

theorem contributes_separated {args : List (List Atom)}
    (h : ∀ a ∈ args, Contributes names depth a depth []) :
    Contributes names depth (separated args) depth [] := by
  induction args with
  | nil => exact contributes_nil
  | cons a args ih =>
    obtain ⟨ha, hargs⟩ := List.forall_mem_cons.1 h
    cases args with
    | nil =>
      rw [separated_singleton]
      exact ha
    | cons b args =>
      rw [separated_cons_cons]
      have hcomma : Contributes names depth [.mark ','] depth [] :=
        contributes_wordless (by simp) rfl
      exact ha.append (hcomma.append (ih hargs))

/-! ## Definitions and calls -/

/-- The head of a definition, as it is read. -/
def Signature.application (s : Signature) : Application :=
  ⟨0, s.name, s.params.map (atoms ·.text)⟩

/-- A call inside `depth` braces, as it is read. -/
def Call.application (depth : Nat) (c : Call) : Application :=
  ⟨depth, c.function, c.args.map atoms⟩

/-- A parameter with a type in front of a name. -/
structure Param.Plain (p : Param) : Prop where
  name : IsName p.name
  closes : closes p.type = true
  type : flat (atoms p.type) = true

namespace Param.Plain

variable {p : Param} (h : p.Plain)
include h

theorem atoms_text : atoms p.text = atoms p.type ++ [Atom.word p.name] := by
  rw [Param.text, atoms_append (by simp [h.closes]), h.name.atoms_eq]

theorem flat : flat (atoms p.text) = true := by
  rw [h.atoms_text, CText.flat, List.all_append]
  exact Bool.and_eq_true_iff.2 ⟨h.type, rfl⟩

theorem ne_nil : atoms p.text ≠ [] := by simp [h.atoms_text]

end Param.Plain

theorem map_atoms_ne {ls : List String} (h : ∀ l ∈ ls, atoms l ≠ []) : ls.map atoms ≠ [[]] := by
  intro hone
  obtain ⟨l, hl, hnil⟩ := List.map_eq_singleton_iff.1 hone
  exact h l (by simp [hl]) hnil

theorem Call.atoms_text {c : Call} (h : IsName c.function) :
    atoms c.text = applied c.function (c.args.map atoms) :=
  Piece.atoms_join [.name c.function h, .text "(", .hole (Listing.commas c.args) _ (atoms_commas _),
    .text ")"] rfl

theorem Signature.atoms_text {s : Signature} (h : IsName s.name) :
    atoms s.text = atoms s.result ++ applied s.name (s.params.map (atoms ·.text)) := by
  have hparams : atoms (Listing.commas (s.params.map Param.text)) =
      separated (s.params.map (atoms ·.text)) := by
    rw [atoms_commas, List.map_map]
    rfl
  exact Piece.atoms_join [.hole s.result _ rfl, .text " ", .name s.name h, .text "(",
    .hole (Listing.commas (s.params.map Param.text)) _ hparams, .text ")"] rfl

theorem contributes_call {c : Call} (hname : IsName c.function) (hf : c.function ∈ names)
    (hflat : ∀ a ∈ c.args, flat (atoms a) = true) (hone : c.args.map atoms ≠ [[]]) :
    Contributes names depth (atoms c.text) depth [c.application depth] := by
  rw [c.atoms_text hname]
  exact contributes_applied (.inr hf) (List.forall_mem_map.2 hflat) hone

theorem contributes_signature {s : Signature} (hname : IsName s.name)
    (hresult : wordless s.result = true) (hparams : ∀ p ∈ s.params, p.Plain) :
    Contributes names 0 (atoms s.text) 0 [s.application] := by
  have hone : s.params.map (atoms ·.text) ≠ [[]] := by
    intro hone
    obtain ⟨p, hp, hnil⟩ := List.map_eq_singleton_iff.1 hone
    exact (hparams p (by simp [hp])).ne_nil hnil
  have hhead : Contributes names 0 (atoms s.result) 0 [] := contributes_text hresult
  have hargs : Contributes names 0 (applied s.name (s.params.map (atoms ·.text))) 0
      [s.application] :=
    contributes_applied (.inl rfl) (List.forall_mem_map.2 fun p hp => (hparams p hp).flat) hone
  rw [s.atoms_text hname]
  exact hhead.append hargs

theorem contributes_definition {s : Signature} {body : List String} (hname : IsName s.name)
    (hresult : wordless s.result = true) (hparams : ∀ p ∈ s.params, p.Plain)
    (hbody : Contributes names 1 (lineAtoms body) 1 apps) :
    Contributes names 0 (lineAtoms (definition s body)) 0 (s.application :: apps) := by
  have hblank : lineAtoms [""] = [] := rfl
  rw [definition, lineAtoms_append, hblank, List.append_nil]
  exact contributes_block (contributes_signature hname hresult hparams) hbody

/-! ## Parameters -/

section

variable (d : Design)

def wordPieces : List Piece := [.text "ap_uint<", .number d.target.wordBits, .text ">"]

theorem atoms_wordType : atoms (wordType d) = (wordPieces d).flatMap Piece.read :=
  Piece.atoms_join (wordPieces d) rfl

def streamPieces : List Piece :=
  [.text "hls::stream<", .hole (wordType d) _ (atoms_wordType d), .text ">"]

theorem atoms_streamType : atoms (streamType d) = (streamPieces d).flatMap Piece.read :=
  Piece.atoms_join (streamPieces d) rfl

theorem atoms_memoryType :
    atoms (wordType d ++ " *") = (wordPieces d).flatMap Piece.read ++ atoms " *" := by
  rw [atoms_append (Bool.or_eq_true_iff.2 (.inr rfl)), atoms_wordType]

theorem atoms_channelType :
    atoms (streamType d ++ " &") = (streamPieces d).flatMap Piece.read ++ atoms " &" := by
  rw [atoms_append (Bool.or_eq_true_iff.2 (.inr rfl)), atoms_streamType]

variable {d} {x : String}

theorem plain_memoryParam (h : IsName x) : (memoryParam d x).Plain where
  name := h
  closes := Piece.closes_append (p := .text " *") rfl
  type := by
    rw [memoryParam, atoms_memoryType]
    rfl

theorem plain_streamParam (h : IsName x) : (streamParam d x).Plain where
  name := h
  closes := Piece.closes_append (p := .text " &") rfl
  type := by
    rw [streamParam, atoms_channelType]
    rfl

theorem plain_floatParam (h : IsName x) : (floatParam x).Plain where
  name := h
  closes := show closes "float " = true from rfl
  type := show flat (atoms "float ") = true from rfl

theorem plain_flag (h : IsName x) : (⟨"bool ", x⟩ : Param).Plain where
  name := h
  closes := show closes "bool " = true from rfl
  type := show flat (atoms "bool ") = true from rfl

end

/-! ## Events -/

/-- The atoms of a read at an address. -/
def readAtoms (source : Endpoint) (address : List Atom) : List Atom :=
  match source with
  | .memory buffer => .word buffer :: .mark '[' :: (address ++ [.mark ']'])
  | .stream channel => [.word channel, .mark '.', .word "read", .mark '(', .mark ')']

theorem atoms_readAt {source : Endpoint} (h : IsName source.name) (address : Piece) :
    atoms (readAt source address.str) = readAtoms source address.read := by
  cases source with
  | memory buffer =>
    exact Piece.atoms_join [.name buffer h, .text "[", .hole address.str _ address.atoms_str,
      .text "]"] rfl
  | stream channel => exact Piece.atoms_join [.name channel h, .text ".read()"] rfl

/-- A read filled in. -/
def readPiece {source : Endpoint} (h : IsName source.name) (address : Piece) : Piece :=
  .hole (readAt source address.str) (readAtoms source address.read) (atoms_readAt h address)

/-- The arguments of the lane helper for a slice. -/
def laneArgs (s : LaneSlice) : List (List Atom) :=
  [[.word s.element],
    if 0 ≤ s.shiftBits then
      [.word "k", .mark '*', .word (toString laneBits), .mark '+', .word (toString s.shiftBits)]
    else
      [.word "k", .mark '*', .word (toString laneBits), .mark '-',
        .word (toString s.shiftBits.natAbs)]]

def laneCall (depth : Nat) (s : LaneSlice) : Application := ⟨depth, "lane", laneArgs s⟩

def laneCalls (depth : Nat) : LaneRead → List Application
  | .direct slice => [laneCall depth slice]
  | .switch _ low high => [laneCall depth low, laneCall depth high]

/-- The value of one lane: the point function, or the forwarded tap of a stage that skips. -/
def pointValue (taps : List String) (function : String) (args : List String)
    (forward : Option String) : String :=
  match forward with
  | some tap => s!"skip ? {tap}[k] : {(pointCall taps function args).text}"
  | none => (pointCall taps function args).text

/-- The line that puts the bits of a value into the word. -/
def packLine (value : String) : String :=
  s!"out_word.range(k * {laneBits} + {laneBits - 1}, k * {laneBits}) = lane_bits({value});"

/-- The bits of the value are taken around the call of the point function. -/
def computeCalls (depth : Nat) (taps : List String) (function : String) (args : List String)
    (forward : Option String) : List Application :=
  [⟨depth, "lane_bits", [atoms (pointValue taps function args forward)]⟩,
    (pointCall taps function args).application depth]

/-- The calls of an event, which stand in a loop over the lanes. -/
def eventCalls (depth : Nat) (taps : List String) : Event → List Application
  | .laneRead _ read => laneCalls (depth + 1) read
  | .compute function args forward => computeCalls (depth + 1) taps function args forward
  | _ => []

/-- The calls of events inside `depth` loops of a function. -/
def eventsCalls (taps : List String) : Nat → List Event → List Application
  | _, [] => []
  | depth, .beginLoop .. :: events => eventsCalls taps (depth + 1) events
  | depth, .endLoop :: events => eventsCalls taps (depth - 1) events
  | depth, e :: events => eventCalls (depth + 1) taps e ++ eventsCalls taps depth events

/-- All loops that are open, `depth` ones at the start, are closed, and no others. -/
def Nested : Nat → List Event → Prop
  | depth, [] => depth = 0
  | depth, .beginLoop .. :: events => Nested (depth + 1) events
  | depth, .endLoop :: events => 0 < depth ∧ Nested (depth - 1) events
  | depth, _ :: events => Nested depth events

theorem isName_laneBits : IsName (toString laneBits) := isName_toString 32

theorem atoms_laneExpr {s : LaneSlice} (h : IsName s.element) :
    atoms (laneExpr s) = applied "lane" (laneArgs s) := by
  unfold laneExpr laneArgs
  split
  · next hshift =>
    exact Piece.atoms_join [.text "lane(", .name s.element h, .text ", k * ",
      .name (toString laneBits) isName_laneBits, .text " + ",
      .name (toString s.shiftBits) (isName_toString_int hshift), .text ")"] rfl
  · exact Piece.atoms_join [.text "lane(", .name s.element h, .text ", k * ",
      .name (toString laneBits) isName_laneBits, .text " - ", .number s.shiftBits.natAbs,
      .text ")"] rfl

theorem contributes_laneExpr (hlane : "lane" ∈ names) {s : LaneSlice} (h : IsName s.element) :
    Contributes names depth (atoms (laneExpr s)) depth [laneCall depth s] := by
  rw [atoms_laneExpr h]
  refine contributes_applied (.inr hlane) ?_ (by simp [laneArgs])
  unfold laneArgs
  split <;> simp [flat]

theorem contributes_laneReadExpr (hlane : "lane" ∈ names) {read : LaneRead}
    (h : ∀ n ∈ read.names, IsName n) :
    Contributes names depth (atoms (laneReadExpr read)) depth (laneCalls depth read) := by
  cases read with
  | direct slice => exact contributes_laneExpr hlane (h _ (by simp [LaneRead.names]))
  | switch split low high =>
    have hlow : Contributes names depth (atoms (laneExpr low)) depth [laneCall depth low] :=
      contributes_laneExpr hlane (h low.element (by simp [LaneRead.names]))
    have hhigh : Contributes names depth (atoms (laneExpr high)) depth [laneCall depth high] :=
      contributes_laneExpr hlane (h high.element (by simp [LaneRead.names]))
    rw [show atoms (laneReadExpr (.switch split low high)) = _ from
      Piece.atoms_join [.text "k < ", .number split, .text " ? ", .hole (laneExpr low) _ rfl,
        .text " : ", .hole (laneExpr high) _ rfl] rfl]
    exact (contributes_text rfl).append ((contributes_word _).append ((contributes_text rfl).append
      (hlow.append ((contributes_text rfl).append (hhigh.append contributes_nil)))))

/-- An argument of the point function stays in its place. -/
theorem atoms_lanedArgument {taps : List String} {x : String} (h : IsName x) :
    flat (atoms (lanedArgument taps x)) = true ∧ atoms (lanedArgument taps x) ≠ [] := by
  unfold lanedArgument
  split
  · rw [show atoms (x ++ "[k]") = _ from Piece.atoms_join [.name x h, .text "[k]"] rfl]
    exact ⟨rfl, by simp [Piece.read, Piece.name]⟩
  · rw [h.atoms_eq]
    exact ⟨rfl, by simp⟩

theorem flat_pointCall {taps args : List String} {function : String}
    (hargs : ∀ x ∈ args, IsName x) :
    ∀ a ∈ (pointCall taps function args).args, flat (atoms a) = true ∧ atoms a ≠ [] :=
  List.forall_mem_map.2 fun x hx => atoms_lanedArgument (hargs x hx)

theorem contributes_pointValue {taps args : List String} {function : String}
    {forward : Option String} (hmem : function ∈ names) (hfunction : IsName function)
    (hargs : ∀ x ∈ args, IsName x) (hforward : ∀ x ∈ forward, IsName x) :
    Contributes names depth (atoms (pointValue taps function args forward)) depth
      [(pointCall taps function args).application depth] := by
  have hflat : ∀ a ∈ (pointCall taps function args).args, flat (atoms a) = true ∧ atoms a ≠ [] :=
    flat_pointCall hargs
  have hcall : Contributes names depth (atoms (pointCall taps function args).text) depth
      [(pointCall taps function args).application depth] :=
    contributes_call hfunction hmem (fun a ha => (hflat a ha).1)
      (map_atoms_ne fun a ha => (hflat a ha).2)
  cases forward with
  | none => exact hcall
  | some tap =>
    rw [show atoms (pointValue taps function args (some tap)) = _ from
      Piece.atoms_join [.text "skip ? ", .name tap (hforward tap rfl), .text "[k] : ",
        .hole (pointCall taps function args).text _ rfl] rfl]
    exact (contributes_text rfl).append ((contributes_word tap).append
      ((contributes_text rfl).append (hcall.append contributes_nil)))

theorem solid_pointValue {taps args : List String} {function : String} {forward : Option String}
    (hfunction : IsName function) (hargs : ∀ x ∈ args, IsName x)
    (hforward : ∀ x ∈ forward, IsName x) :
    Solid (atoms (pointValue taps function args forward)) ∧
      atoms (pointValue taps function args forward) ≠ [] := by
  have htext : atoms (pointCall taps function args).text = applied function
      ((pointCall taps function args).args.map atoms) := Call.atoms_text hfunction
  have hsolid : Solid (atoms (pointCall taps function args).text) := by
    rw [htext]
    refine solid_applied (List.forall_mem_map.2 fun a ha => ?_)
    exact solid_of_flat (flat_pointCall hargs a ha).1
  cases forward with
  | none =>
    refine ⟨hsolid, ?_⟩
    rw [show atoms (pointValue taps function args none) = _ from htext]
    simp [applied]
  | some tap =>
    rw [show atoms (pointValue taps function args (some tap)) = _ from
      Piece.atoms_join [.text "skip ? ", .name tap (hforward tap rfl), .text "[k] : ",
        .hole (pointCall taps function args).text _ rfl] rfl]
    have hskip : Solid (atoms "skip ? ") := solid_of_flat rfl
    have htap : Solid [.word tap] := solid_of_flat rfl
    have helse : Solid (atoms "[k] : ") := solid_of_flat rfl
    exact ⟨hskip.append (htap.append (helse.append (hsolid.append solid_nil))),
      List.cons_ne_nil _ _⟩

/-- The bits of a lane in the word that is put together. -/
def rangePieces : List Piece :=
  [.text "out_word.range(k * ", .name (toString laneBits) isName_laneBits, .text " + ",
    .name (toString (laneBits - 1)) (isName_toString_int (by decide)), .text ", k * ",
    .name (toString laneBits) isName_laneBits, .text ") = "]

/-- Texts that a value can stand between: the first one ends with no word or with one of these. -/
def frames (ks : List String) (front : List Piece) (back : String) : Bool :=
  (front.flatMap Piece.read).head?.any (· ≠ .mark '(') && inert ks (front.flatMap Piece.read) &&
    (lastWord none (front.flatMap Piece.read)).all (· ∈ ks) &&
    (atoms back).head? ≠ some (.mark '(') && inert ks (atoms back)

section

variable (hwords : ∀ w ∈ quietWords, w ∉ names)
include hwords

/-- A line inside braces that has none of the names in front of a parenthesis. -/
theorem contributes_quietLine {line : String} (ps : List Piece) (hline : line = Piece.join ps)
    (hquiet : quietPieces quietWords ps = true) :
    Contributes names (depth + 1) (atoms line) (depth + 1) [] :=
  contributes_line ps (fun w hw => ⟨Nat.succ_pos depth, hwords w hw⟩) hline hquiet

theorem contributes_discardWords {source : String} (h : IsName source) (words : Nat) :
    Contributes names (depth + 1) (atoms (discardWords source words)) (depth + 1) [] :=
  contributes_quietLine hwords [.text "for (int d = 0; d < ", .number words, .text "; d++) ",
    .name source h, .text ".read();"] rfl rfl

omit hwords in
theorem contributes_pipelined {head line : String}
    (hhead : Contributes names (depth + 1) (atoms head) (depth + 1) [])
    (hline : Contributes names (depth + 2) (atoms line) (depth + 2) []) :
    Contributes names (depth + 1) (lineAtoms (block head ["#pragma HLS pipeline II=1", line]))
      (depth + 1) [] := by
  have hpragma : Contributes names (depth + 2) (atoms "#pragma HLS pipeline II=1") (depth + 2) [] :=
    contributes_text rfl
  exact contributes_block hhead (contributes_cons hpragma (contributes_one hline))

/-- A stream with its depth. -/
theorem contributes_channel {d : Design} {x : String} (h : IsName x) (size : Nat) :
    Contributes names (depth + 1) (lineAtoms [s!"{streamType d} {x};",
      s!"#pragma HLS stream variable={x} depth={size}"]) (depth + 1) [] :=
  contributes_cons (contributes_quietLine hwords [.hole (streamType d) _ (atoms_streamType d),
    .text " ", .name x h, .text ";"] rfl rfl)
    (contributes_one (contributes_quietLine hwords [.text "#pragma HLS stream variable=", .name x h,
      .text " depth=", .number size] rfl rfl))

theorem contributes_declareLines {d : Design} {e : Element} (h : IsName e.name) :
    Contributes names (depth + 1) (lineAtoms (declareLines d e)) (depth + 1) [] := by
  have hword : Contributes names (depth + 1)
      (lineAtoms [s!"{wordType d} {e.name} = 0;"]) (depth + 1) [] :=
    contributes_one (contributes_quietLine hwords [.hole (wordType d) _ (atoms_wordType d),
      .text " ", .name e.name h, .text " = 0;"] rfl rfl)
  unfold declareLines
  split
  · next size _ =>
    exact contributes_channel hwords h size
  · exact hword
  · exact hword

theorem contributes_initLines {op : InitOp} (h : ∀ n ∈ op.names, IsName n) :
    Contributes names (depth + 1) (lineAtoms (initLines op)) (depth + 1) [] := by
  cases op with
  | discard source words =>
    have hsource := h source.name (by simp [InitOp.names])
    exact contributes_one (contributes_discardWords hwords hsource words)
  | load target source address =>
    have htarget := h target (by simp [InitOp.names])
    have hsource := h source.name (by simp [InitOp.names])
    refine contributes_one ?_
    cases source <;>
      exact contributes_quietLine hwords [.name target htarget, .text " = ",
        readPiece hsource (.number address), .text ";"] rfl rfl
  | fill queue source first count =>
    have hqueue := h queue (by simp [InitOp.names])
    have hsource := h source.name (by simp [InitOp.names])
    refine contributes_pipelined (contributes_quietLine hwords
      [.text "for (int f = 0; f < ", .number count, .text "; f++)"] rfl rfl) ?_
    cases source <;>
      exact contributes_quietLine hwords [.name queue hqueue, .text ".write(",
        readPiece hsource (.hole s!"{first} + f" _ (Piece.atoms_join
          [.number first, .text " + f"] rfl)), .text ");"] rfl rfl

/-- A line with a value between fixed texts. -/
theorem contributes_framed {line value back : String} (front : List Piece)
    (hline : line = Piece.join (front ++ [Piece.hole value _ rfl, Piece.text back]))
    (hvalue : inert quietWords (atoms value) = true)
    (hapart : Piece.apart (front ++ [Piece.hole value _ rfl, Piece.text back]) = true)
    (hframe : frames quietWords front back = true) :
    Contributes names (depth + 1) (atoms line) (depth + 1) [] := by
  simp only [frames, Bool.and_eq_true, decide_eq_true_eq, Option.all_eq_true] at hframe
  obtain ⟨⟨⟨⟨hstarts, hfront⟩, hlast⟩, hback⟩, hinert⟩ := hframe
  rw [hline, Piece.atoms_join _ hapart, List.flatMap_append]
  have hrest : inert quietWords (atoms value ++ atoms back) = true :=
    inert_append hvalue hinert (.inl hback)
  -- the value may start with a parenthesis, and then the word in front of it counts
  have hall := inert_append hfront hrest (.inr hlast)
  refine contributes_inert (fun w hw => ⟨Nat.succ_pos depth, hwords w hw⟩) ?_ ?_
  · obtain ⟨a, hhead, ha⟩ := (Option.any_eq_true ..).1 hstarts
    rw [List.head?_append, hhead]
    simpa using ha
  · simpa [Piece.read] using hall

/-- A value is put into a register or into a queue. -/
theorem contributes_assign {e : Element} {value : String} (h : IsName e.name)
    (hvalue : inert quietWords (atoms value) = true) :
    Contributes names (depth + 1) (atoms (assign e value)) (depth + 1) [] := by
  unfold assign
  split
  · exact contributes_framed hwords [.name e.name h, .text ".write("] rfl hvalue rfl rfl
  · exact contributes_framed hwords [.name e.name h, .text " = "] rfl hvalue rfl rfl

theorem contributes_advanceLine {d : Design} {op : AdvanceOp} (h : ∀ n ∈ op.names, IsName n) :
    Contributes names (depth + 1) (atoms (advanceLine d op)) (depth + 1) [] := by
  cases op with
  | delay target source =>
    have htarget := h target (by simp [AdvanceOp.names])
    have hsource := h source (by simp [AdvanceOp.names])
    exact contributes_quietLine hwords [.name target htarget, .text " = ", .name source hsource,
      .text ";"] rfl rfl
  | shift target source =>
    have htarget := h target.name (by simp [AdvanceOp.names])
    have hsource := h source.name (by simp [AdvanceOp.names])
    refine contributes_assign hwords htarget ?_
    unfold takeFrom
    split
    · have htext : atoms s!"{source.name}.read()" =
          [Atom.word source.name] ++ (atoms ".read()" ++ []) :=
        Piece.atoms_join [.name source.name hsource, .text ".read()"] rfl
      rw [htext]
      rfl
    · rw [hsource.atoms_eq]
      rfl
  | fetch target source first validSteps =>
    have htarget := h target.name (by simp [AdvanceOp.names])
    have hsource := h source.name (by simp [AdvanceOp.names])
    refine contributes_assign hwords htarget ?_
    cases source <;>
      exact inert_join [.text "i < ", .number validSteps, .text " ? ",
        readPiece hsource (.hole s!"{first} + i" _ (Piece.atoms_join
          [.number first, .text " + i"] rfl)),
        .text " : ", .hole (wordType d) _ (atoms_wordType d), .text "(0)"] rfl rfl

theorem contributes_drainLine {op : DrainOp} (h : ∀ n ∈ op.names, IsName n) :
    Contributes names (depth + 1) (atoms (drainLine op)) (depth + 1) [] := by
  cases op with
  | queue name words =>
    exact contributes_discardWords hwords (h name (by simp [DrainOp.names])) words
  | surplus source words =>
    exact contributes_discardWords hwords (h source.name (by simp [DrainOp.names])) words

theorem contributes_storeLine {target : Endpoint} (h : IsName target.name) (first : Nat) :
    Contributes names (depth + 1) (atoms (storeLine target first)) (depth + 1) [] := by
  cases target with
  | memory buffer =>
    exact contributes_quietLine hwords [.name buffer h, .text "[", .number first,
      .text " + i] = out_word;"] rfl rfl
  | stream channel =>
    exact contributes_quietLine hwords [.name channel h, .text ".write(out_word);"] rfl rfl

theorem contributes_laneLoop {d : Design} {body : String}
    (hbody : Contributes names (depth + 2) (atoms body) (depth + 2) apps) :
    Contributes names (depth + 1) (lineAtoms (laneLoop d body)) (depth + 1) apps := by
  have hpragma : Contributes names (depth + 2) (atoms "#pragma HLS unroll") (depth + 2) [] :=
    contributes_text rfl
  exact contributes_block (contributes_quietLine hwords [.text "for (int k = 0; k < ",
    .number d.target.unroll, .text "; k++)"] rfl rfl)
    (contributes_cons hpragma (contributes_one hbody))

theorem contributes_laneReadLines {d : Design} {tap : String} {read : LaneRead}
    (hlane : "lane" ∈ names) (htap : IsName tap) (h : ∀ n ∈ read.names, IsName n) :
    Contributes names (depth + 1) (lineAtoms (laneReadLines d tap read)) (depth + 1)
      (laneCalls (depth + 2) read) := by
  have hfirst : Contributes names (depth + 1) (lineAtoms [s!"float {tap}[{d.target.unroll}];"])
      (depth + 1) [] :=
    contributes_one (contributes_quietLine hwords [.text "float ", .name tap htap, .text "[",
      .number d.target.unroll, .text "];"] rfl rfl)
  have hbody : Contributes names (depth + 2) (atoms s!"{tap}[k] = {laneReadExpr read};") (depth + 2)
      (laneCalls (depth + 2) read) := by
    rw [← List.append_nil (laneCalls _ read),
      show atoms s!"{tap}[k] = {laneReadExpr read};" = _ from Piece.atoms_join
        [.name tap htap, .text "[k] = ", .hole (laneReadExpr read) _ rfl, .text ";"] rfl]
    exact (contributes_word tap).append ((contributes_text rfl).append
      ((contributes_laneReadExpr hlane h).append ((contributes_text rfl).append contributes_nil)))
  rw [laneReadLines, lineAtoms_append]
  exact hfirst.append (contributes_laneLoop hwords hbody)

theorem contributes_computeLines {d : Design} {taps args : List String} {function : String}
    {forward : Option String} (hbits : "lane_bits" ∈ names) (hmem : function ∈ names)
    (hfunction : IsName function) (hargs : ∀ x ∈ args, IsName x)
    (hforward : ∀ x ∈ forward, IsName x) :
    Contributes names (depth + 1) (lineAtoms (computeLines d taps function args forward))
      (depth + 1) (computeCalls (depth + 2) taps function args forward) := by
  have hfirst : Contributes names (depth + 1) (lineAtoms [s!"{wordType d} out_word;"])
      (depth + 1) [] :=
    contributes_one (contributes_quietLine hwords [.hole (wordType d) _ (atoms_wordType d),
      .text " out_word;"] rfl rfl)
  obtain ⟨hsolid, hne⟩ := solid_pointValue hfunction hargs hforward
  have hcall : Contributes names (depth + 2)
      (applied "lane_bits" [atoms (pointValue taps function args forward)]) (depth + 2)
      (computeCalls (depth + 2) taps function args forward) := by
    refine contributes_application (.inr hbits) (by simpa using hsolid) (by simpa using hne) ?_
    rw [separated_singleton]
    exact contributes_pointValue hmem hfunction hargs hforward
  have hline : atoms (packLine (pointValue taps function args forward)) =
      rangePieces.flatMap Piece.read ++
        (applied "lane_bits" [atoms (pointValue taps function args forward)] ++ atoms ";") := by
    rw [applied, separated_singleton, List.cons_append, List.cons_append, List.append_assoc]
    exact Piece.atoms_join [.text "out_word.range(k * ", .name (toString laneBits) isName_laneBits,
      .text " + ", .name (toString (laneBits - 1)) (isName_toString_int (by decide)),
      .text ", k * ", .name (toString laneBits) isName_laneBits, .text ") = lane_bits(",
      .hole (pointValue taps function args forward) _ rfl, .text ");"] rfl
  have hrange : Contributes names (depth + 2) (atoms (Piece.join rangePieces)) (depth + 2) [] :=
    contributes_quietLine hwords rangePieces rfl rfl
  rw [Piece.atoms_join rangePieces rfl] at hrange
  have hend : Contributes names (depth + 2) (atoms ";") (depth + 2) [] := contributes_text rfl
  have hbody := hrange.append (hcall.append hend)
  rw [← hline, List.append_nil, List.nil_append] at hbody
  have hlines : computeLines d taps function args forward = [s!"{wordType d} out_word;"] ++
      laneLoop d (packLine (pointValue taps function args forward)) := by
    cases forward <;> rfl
  rw [hlines, lineAtoms_append]
  exact hfirst.append (contributes_laneLoop hwords hbody)

/-- What an event calls is a function of the text. -/
def Event.Calls (names : List String) : Event → Prop
  | .laneRead .. => "lane" ∈ names
  | .compute function .. => "lane_bits" ∈ names ∧ function ∈ names
  | _ => True

theorem contributes_eventLines {d : Design} {taps : List String} {e : Event}
    (hnames : ∀ n ∈ e.names, IsName n) (hcalls : Event.Calls names e) :
    Contributes names (depth + 1) (lineAtoms (eventLines d taps e)) (depth + 1)
      (eventCalls (depth + 1) taps e) := by
  cases e with
  | declare e => exact contributes_declareLines hwords (hnames e.name (by simp [Event.names]))
  | init op => exact contributes_initLines hwords hnames
  | beginLoop | endLoop => exact contributes_nil
  | laneRead tap read =>
    obtain ⟨htap, hread⟩ := List.forall_mem_cons.1 hnames
    exact contributes_laneReadLines hwords hcalls htap hread
  | compute function args forward =>
    obtain ⟨hfunction, hrest⟩ := List.forall_mem_cons.1 hnames
    obtain ⟨hargs, hforward⟩ := List.forall_mem_append.1 hrest
    exact contributes_computeLines hwords hcalls.1 hcalls.2 hfunction hargs
      fun x hx => hforward x (Option.mem_toList.2 hx)
  | store target first =>
    exact contributes_one (contributes_storeLine hwords (hnames _ (by simp [Event.names])) first)
  | advance op => exact contributes_one (contributes_advanceLine hwords hnames)
  | drain op => exact contributes_one (contributes_drainLine hwords hnames)

/-- The body of a stage, by the nesting of its loops. -/
theorem contributes_eventsLines {d : Design} {taps : List String} {events : List Event}
    (hnames : ∀ e ∈ events, ∀ n ∈ e.names, IsName n) (hcalls : ∀ e ∈ events, Event.Calls names e)
    (hnested : Nested depth events) :
    Contributes names (depth + 1) (lineAtoms (eventsLines d taps depth events)) 1
      (eventsCalls taps depth events) := by
  -- a loop is a brace inside the one of the function, and its lines lead in and out of it
  fun_induction eventsLines d taps depth events with
  | case1 depth =>
    cases show depth = 0 from hnested
    exact contributes_nil
  | case2 depth trips unroll events ih =>
    have hhead : Contributes names (depth + 1) (atoms s!"for (int i = 0; i < {trips}; i++)")
        (depth + 1) [] :=
      contributes_quietLine hwords [.text "for (int i = 0; i < ", .number trips, .text "; i++)"]
        rfl rfl
    have hopen : atoms s!"for (int i = 0; i < {trips}; i++) \x7b" =
        atoms s!"for (int i = 0; i < {trips}; i++)" ++ [Atom.mark '\x7b'] := by
      rw [show atoms s!"for (int i = 0; i < {trips}; i++)" = _ from Piece.atoms_join
        [.text "for (int i = 0; i < ", .number trips, .text "; i++)"] rfl]
      exact Piece.atoms_join [.text "for (int i = 0; i < ", .number trips, .text "; i++) \x7b"] rfl
    have hpragma : Contributes names (depth + 2) (atoms "#pragma HLS pipeline II=1")
        (depth + 2) [] :=
      contributes_text rfl
    have hrest := ih (fun e he => hnames e (.tail _ he)) (fun e he => hcalls e (.tail _ he)) hnested
    have hfor : Contributes names (depth + 1)
        (lineAtoms [s!"for (int i = 0; i < {trips}; i++) \x7b"]) (depth + 2) [] := by
      refine contributes_one ?_
      rw [hopen]
      exact hhead.append contributes_open
    rw [lineAtoms_append, lineAtoms_repeat_indent, lineAtoms_append, lineAtoms_indent]
    exact (hfor.append (contributes_one hpragma)).append hrest
  | case3 depth events ih =>
    obtain ⟨hpos, hnested⟩ := hnested
    obtain ⟨n, rfl⟩ := Nat.exists_eq_add_one_of_ne_zero (Nat.ne_of_gt hpos)
    have hrest := ih (fun e he => hnames e (.tail _ he)) (fun e he => hcalls e (.tail _ he)) hnested
    have hclose : Contributes names (n + 2) (lineAtoms ["\x7d"]) (n + 1) [] :=
      contributes_one contributes_close
    rw [lineAtoms_append, lineAtoms_repeat_indent]
    exact hclose.append hrest
  | case4 depth e events hbegin hend ih =>
    rw [Nested.eq_4 _ _ _ hbegin hend] at hnested
    obtain ⟨hname, hnames⟩ := List.forall_mem_cons.1 hnames
    obtain ⟨hcall, hcalls⟩ := List.forall_mem_cons.1 hcalls
    rw [lineAtoms_append, lineAtoms_repeat_indent, eventsCalls.eq_4 _ _ _ _ hbegin hend]
    exact (contributes_eventLines hwords hname hcall).append (ih hnames hcalls hnested)

omit hwords in
theorem nested_map_append {α : Type} {f : α → Event} {rest : List Event}
    (hbegin : ∀ x, (f x).isBeginLoop = false) (hend : ∀ x, (f x).isEndLoop = false) (xs : List α)
    (h : Nested depth rest) :
    Nested depth (xs.map f ++ rest) := by
  induction xs with
  | nil => exact h
  | cons x xs ih =>
    specialize hbegin x
    specialize hend x
    rw [List.map_cons, List.cons_append]
    cases hx : f x with
    | beginLoop | endLoop => simp_all [Event.isBeginLoop, Event.isEndLoop]
    | declare | init | laneRead | compute | store | advance | drain => exact ih

end

/-- The code of a stage has one loop. -/
theorem nested_events (p : StageCode) : Nested 0 p.events := by
  unfold StageCode.events
  refine nested_map_append (fun _ => rfl) (fun _ => rfl) _ ?_
  refine nested_map_append (fun _ => rfl) (fun _ => rfl) _ ?_
  refine nested_map_append (fun _ => rfl) (fun _ => rfl) _ ?_
  refine nested_map_append (fun _ => rfl) (fun _ => rfl) _ ⟨Nat.one_pos, ?_⟩
  rw [← List.append_nil (p.drains.map _)]
  exact nested_map_append (fun _ => rfl) (fun _ => rfl) _ rfl

theorem exists_event_of_mem {taps : List String} {events : List Event} {c : Application}
    (h : c ∈ eventsCalls taps depth events) : ∃ n, ∃ e ∈ events, c ∈ eventCalls (n + 1) taps e := by
  fun_induction eventsCalls taps depth events with
  | case1 => cases h
  | case2 depth trips unroll events ih =>
    obtain ⟨n, e, he, hc⟩ := ih h
    exact ⟨n, e, .tail _ he, hc⟩
  | case3 depth events ih =>
    obtain ⟨n, e, he, hc⟩ := ih h
    exact ⟨n, e, .tail _ he, hc⟩
  | case4 depth e events _ _ ih =>
    rcases List.mem_append.1 h with h | h
    · exact ⟨depth, e, .head _, h⟩
    · obtain ⟨n, e, he, hc⟩ := ih h
      exact ⟨n, e, .tail _ he, hc⟩

/-- A stage calls the lane helpers and the functions that it computes with. -/
theorem cases_of_mem_eventsCalls {taps : List String} {events : List Event} {c : Application}
    (h : c ∈ eventsCalls taps depth events) : ∃ n, (∃ slice, c = laneCall (n + 1) slice) ∨
      ∃ function args forward, .compute function args forward ∈ events ∧
        c ∈ computeCalls (n + 1) taps function args forward := by
  obtain ⟨n, e, he, hc⟩ := exists_event_of_mem h
  refine ⟨n + 1, ?_⟩
  cases e with
  | laneRead tap read =>
    cases read with
    | direct slice => exact .inl ⟨slice, List.mem_singleton.1 hc⟩
    | switch split low high =>
      simp only [eventCalls, laneCalls, List.mem_cons, List.not_mem_nil, or_false] at hc
      exact .inl (hc.elim (fun h => ⟨low, h⟩) fun h => ⟨high, h⟩)
  | compute function args forward => exact .inr ⟨function, args, forward, he, hc⟩
  | declare | init | beginLoop | store | advance | endLoop | drain => cases hc

end KernelText

end GridSweep
