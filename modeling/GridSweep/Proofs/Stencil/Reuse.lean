import GridSweep.Proofs.Stencil.Accepted

/-!
# Analyses that share a table

`answers` are those to programs that are analysed one after the other, each with the names that the
ones before it have declared, whether those were accepted or not. `Leak` lists the ways in which
these names change the answer to a program: an input, the output or a variable is refused because of
its name, or an array that the program does not declare is taken for one of its inputs. There are no
others (`run_own_or_leak`), and programs that are accepted on their own get their own answers one
after the other exactly if none of them looks up an input of an earlier one.
-/

namespace GridSweep

namespace Program

/-- The names that an analysis looks up among the declared ones: the inputs, the output, and the
arrays and variables of the simplified statement. -/
def lookups (p : Program Node) : List String :=
  p.inputNames ++ p.output.target.name ::
    (Node.simplifyOutput p.output).expressions.flatMap fun e => e.refs.map (·.name) ++ e.vars

/-- No input of `p` is looked up for `q`. -/
def Apart (p q : Program Node) : Prop := ∀ v ∈ p.inputNames, v ∉ q.lookups

instance : DecidableRel Apart := fun p _ => inferInstanceAs (Decidable (∀ v ∈ p.inputNames, _))

theorem mem_lookups {p : Program Node} {v : String} : v ∈ p.lookups ↔
    v ∈ p.inputNames ∨ v = p.output.target.name ∨
      (∃ r, (Node.simplifyOutput p.output).Reads r ∧ r.name = v) ∨
      ∃ e ∈ (Node.simplifyOutput p.output).expressions, v ∈ e.vars := by
  simp only [lookups, List.mem_append, List.mem_cons, List.mem_flatMap, List.mem_map,
    Output.reads_iff]
  constructor
  · rintro (hv | rfl | ⟨e, he, ⟨r, hr, rfl⟩ | hv⟩)
    · exact .inl hv
    · exact .inr (.inl rfl)
    · exact .inr (.inr (.inl ⟨r, ⟨e, he, hr⟩, rfl⟩))
    · exact .inr (.inr (.inr ⟨e, he, hv⟩))
  · rintro (hv | rfl | ⟨r, ⟨e, he, hr⟩, rfl⟩ | ⟨e, he, hv⟩)
    · exact .inl hv
    · exact .inr (.inl rfl)
    · exact .inr (.inr ⟨e, he, .inl ⟨r, hr, rfl⟩⟩)
    · exact .inr (.inr ⟨e, he, .inr hv⟩)

end Program

namespace Analysis

/-- The answers to programs analysed one after the other. -/
def answers : Declared → List (Program Node) → List (Except Error Stencil)
  | _, [] => []
  | d, p :: ps => (run d p).1 :: answers (run d p).2 ps

/-- How names `d` that others have declared change the answer to `p` from `own` to `got`. -/
inductive Leak (d : Declared) (p : Program Node) (own : Except Error Stencil) :
    (got : Except Error Stencil) → Prop where
  /-- An input is declared for the first time and refused. -/
  | input {v : String} : v ∈ d → v ∈ p.inputNames →
      Leak d p own (.error (.config (.declaredTwice v)))
  /-- The output is taken for an input. -/
  | output : p.output.target.name ∈ d →
      Leak d p own (.error (.config (.outputIsInput p.output.target.name)))
  /-- A scalar or a binding is taken for an input. -/
  | bare {v : String} {e : Node} : v ∈ d →
      e ∈ (Node.simplifyOutput p.output).expressions → v ∈ e.vars →
      Leak d p own (.error (.config (.bareInput v)))
  /-- An array that the program does not declare passes for one of its inputs. -/
  | array {v : String} {r : Ref} {got : Except Error Stencil} : v ∈ d → v ∉ p.inputNames →
      (Node.simplifyOutput p.output).Reads r → r.name = v →
      own = .error (.undefinedVariable v) → Leak d p own got

namespace Leak

variable {d d' : Declared} {p : Program Node} {own got : Except Error Stencil}

theorem mono (h : Leak d p own got) (hd : d ⊆ d') : Leak d' p own got := by
  cases h with
  | input hv hname => exact .input (hd hv) hname
  | output hv => exact .output (hd hv)
  | bare hv he hname => exact .bare (hd hv) he hname
  | array hv hnew hr hname hown => exact .array (hd hv) hnew hr hname hown

theorem exists_lookup (h : Leak d p own got) : ∃ v ∈ d, v ∈ p.lookups := by
  simp only [Program.mem_lookups]
  cases h with
  | input hv hname => exact ⟨_, hv, .inl hname⟩
  | output hv => exact ⟨_, hv, .inr (.inl rfl)⟩
  | bare hv he hname => exact ⟨_, hv, .inr (.inr (.inr ⟨_, he, hname⟩))⟩
  | array hv _ hr hname => exact ⟨_, hv, .inr (.inr (.inl ⟨_, hr, hname⟩))⟩

end Leak

/-! ## What each check sees of the other names

`d` are the names that others have declared and `t` those of the program itself. -/

section

variable {d t : Declared} {p : Program Node}

theorem declareInputs_append (first : Input) (d t : Declared) (inputs : List Input) :
    declareInputs first (d ++ t) inputs =
        ((declareInputs first t inputs).1, d ++ (declareInputs first t inputs).2) ∨
      ∃ v ∈ d, v ∈ inputs.map (·.name) ∧
        (declareInputs first (d ++ t) inputs).1 = .error (.config (.declaredTwice v)) := by
  induction inputs generalizing t with
  | nil => exact .inl rfl
  | cons i inputs ih =>
    simp only [declareInputs, List.mem_append, List.append_assoc]
    by_cases hsize : i.size = first.size
    · by_cases hold : i.name ∈ d
      · exact .inr ⟨i.name, hold, by simp, by simp [hsize, hold]⟩
      · by_cases hown : i.name ∈ t
        · exact .inl (by simp [hsize, hown])
        · simp only [hsize, hold, hown, ne_eq, not_true_eq_false, or_false, if_false]
          obtain hsame | ⟨v, hv, hname, hrun⟩ := ih (t ++ [i.name])
          · exact .inl hsame
          · exact .inr ⟨v, hv, List.mem_cons_of_mem _ hname, hrun⟩
    · exact .inl (by simp [hsize])

theorem declareInputs_subset (first : Input) (d : Declared) (inputs : List Input) :
    (declareInputs first d inputs).2 ⊆ d ++ inputs.map (·.name) := by
  induction inputs generalizing d with
  | nil => simp [declareInputs]
  | cons i inputs ih =>
    rw [declareInputs]
    split
    · exact List.subset_append_left ..
    split
    · exact List.subset_append_left ..
    · simpa using ih (d ++ [i.name])

theorem checkTarget_append {target : Ref} {size : List Nat} (h : target.name ∉ d) :
    checkTarget (d ++ t) target size = checkTarget t target size := by
  simp [checkTarget, h]

theorem scalarVars_append (d t : Declared) (o : Output Node) :
    scalarVars (d ++ t) o = scalarVars t o ∨
      ∃ v ∈ d, ∃ e ∈ o.expressions, v ∈ e.vars ∧
        scalarVars (d ++ t) o = .error (.config (.bareInput v)) := by
  have hloop : scalarVars (d ++ t) o = scalarVars t o ∨
      ∃ err, (∃ v ∈ d, ∃ e ∈ o.expressions, v ∈ e.vars ∧ err = .config (.bareInput v)) ∧
        scalarVars (d ++ t) o = .error err := by
    refine foldlM_eq_or_error (fun q hq scalars => foldlM_eq_or_error (fun x hx scalars => ?_) _) _
    by_cases hold : x ∈ d
    · have hexpr : q.1 ∈ o.expressions := List.fst_mem_of_mem_zipIdx hq
      rw [Node.distinctVars_eq, List.mem_eraseDups] at hx
      exact .inr ⟨_, ⟨x, hold, q.1, hexpr, hx, rfl⟩, by simp [addScalar, hold]⟩
    · exact .inl (by simp [addScalar, hold])
  obtain hsame | ⟨_, ⟨v, hv, e, he, hvar, rfl⟩, hrun⟩ := hloop
  · exact .inl hsame
  · exact .inr ⟨v, hv, e, he, hvar, hrun⟩

/-- The first undeclared name stays the first, or it is one that others have declared. -/
theorem checkDeclared_append (d t : Declared) (refs : Footprint) :
    checkDeclared (d ++ t) refs = checkDeclared t refs ∨
      ∃ v ∈ d, v ∉ t ∧ v ∈ refs.map (·.1) ∧
        checkDeclared t refs = .error (.undefinedVariable v) := by
  unfold checkDeclared
  cases hfirst : refs.find? (·.1 ∉ t) with
  | none =>
    have hnone : refs.find? (·.1 ∉ d ++ t) = none := by
      simp only [List.find?_eq_none, decide_eq_true_eq, not_not] at hfirst ⊢
      exact fun q hq => List.mem_append_right _ (hfirst q hq)
    exact .inl (by rw [hnone])
  | some q =>
    have hown : q.1 ∉ t := by simpa using List.find?_some hfirst
    by_cases hold : q.1 ∈ d
    · exact .inr ⟨q.1, hold, hown, List.mem_map_of_mem (List.mem_of_find?_eq_some hfirst), rfl⟩
    · have hsome : refs.find? (·.1 ∉ d ++ t) = some q := by
        rw [List.find?_eq_some_iff_append] at hfirst ⊢
        obtain ⟨-, front, back, hsplit, hfront⟩ := hfirst
        simp only [Bool.not_eq_true', decide_eq_false_iff_not, not_not] at hfront ⊢
        exact ⟨by simp [hold, hown], front, back, hsplit,
          fun r hr => List.mem_append_right _ (hfront r hr)⟩
      exact .inl (by rw [hsome])

/-- The checks after the inputs, with the names of others in front of the program's own. -/
theorem stencilOf_own_or_leak (size : List Nat) :
    stencilOf (d ++ p.inputNames) p size = stencilOf p.inputNames p size ∨
      Leak d p (stencilOf p.inputNames p size) (stencilOf (d ++ p.inputNames) p size) := by
  unfold stencilOf
  cases checkHeader p size with
  | error _ => exact .inl rfl
  | ok _ =>
  by_cases htarget : p.output.target.name ∈ d
  · have hrefused : checkTarget (d ++ p.inputNames) p.output.target size =
        .error (.config (.outputIsInput p.output.target.name)) := by
      simp [checkTarget, htarget]
    rw [hrefused]
    exact .inr (.output htarget)
  rw [checkTarget_append htarget]
  cases checkTarget p.inputNames p.output.target size with
  | error _ => exact .inl rfl
  | ok _ =>
  simp only [ok_bind]
  obtain hsame | ⟨v, hv, e, he, hvar, hrun⟩ :=
    scalarVars_append d p.inputNames (Node.simplifyOutput p.output)
  · rw [hsame]
    cases scalarVars p.inputNames (Node.simplifyOutput p.output) with
    | error _ => exact .inl rfl
    | ok scalars =>
    cases hrefs : Node.outputFootprint (Node.simplifyOutput p.output) with
    | error _ => exact .inl rfl
    | ok refs =>
    simp only [ok_bind]
    obtain hsame | ⟨v, hv, hnew, hread, hrun⟩ := checkDeclared_append d p.inputNames refs
    · exact .inl (by rw [hsame])
    · obtain ⟨r, hr, hname⟩ := (Node.mem_names_outputFootprint hrefs).1 hread
      exact .inr (.array hv hnew hr hname (by rw [hrun, error_bind]))
  · rw [hrun]
    exact .inr (.bare hv he hvar)

/-- An analysis gives the answer that the program gets on its own, or a name leaks into it. -/
theorem run_own_or_leak (d : Declared) (p : Program Node) :
    (run d p).1 = p.analyze ∨ Leak d p p.analyze (run d p).1 := by
  cases hinputs : p.inputs with
  | nil => exact .inl (by simp [Program.analyze, run, hinputs])
  | cons first rest =>
    rw [Program.analyze, (run_cons hinputs).1, (run_cons hinputs).1]
    have hdeclare := declareInputs_append first d [] p.inputs
    rw [List.append_nil] at hdeclare
    obtain hsame | ⟨v, hv, hname, hrun⟩ := hdeclare
    · rw [hsame]
      rcases hown : declareInputs first [] p.inputs with ⟨_ | _, t⟩
      · exact .inl rfl
      · obtain ⟨-, rfl⟩ := declareInputs_ok_iff.1 hown
        exact stencilOf_own_or_leak first.size
    · rw [hrun]
      exact .inr (.input hv hname)

theorem run_eq_own (h : ∀ v ∈ d, v ∉ p.lookups) : (run d p).1 = p.analyze := by
  refine (run_own_or_leak d p).resolve_right fun hleak => ?_
  obtain ⟨v, hv, hlookup⟩ := hleak.exists_lookup
  exact h v hv hlookup

theorem run_subset (d : Declared) (p : Program Node) : (run d p).2 ⊆ d ++ p.inputNames := by
  cases hinputs : p.inputs with
  | nil => simp [run, hinputs]
  | cons first rest =>
    rw [(run_cons hinputs).2]
    exact declareInputs_subset ..

/-- All inputs of an accepted program stay declared. -/
theorem run_declared {s : Stencil} (h : (run d p).1 = .ok s) : (run d p).2 = d ++ p.inputNames := by
  cases hinputs : p.inputs with
  | nil => simp [run, hinputs] at h
  | cons first rest =>
    rw [(run_cons hinputs).1, andThen_eq_ok] at h
    rw [(run_cons hinputs).2]
    exact (declareInputs_ok_iff.1 (Prod.ext h.1 rfl)).2

/-- A program that is accepted on its own is accepted behind others exactly if nothing that it looks
up is declared. -/
theorem run_eq_own_iff {s : Stencil} (h : p.analyze = .ok s) :
    (run d p).1 = p.analyze ↔ ∀ v ∈ d, v ∉ p.lookups := by
  constructor
  · intro hrun v hv hlookup
    obtain ⟨-, hown⟩ := analyze_ok_iff.1 h
    obtain ⟨⟨-, -, -, hnew⟩, hstencil⟩ := run_ok_iff.1 (hrun.trans h)
    obtain ⟨-, ⟨htarget, -⟩, hvars, -⟩ := stencilOf_ok_iff.1 hstencil
    obtain hinput | rfl | ⟨r, hr, rfl⟩ | ⟨e, he, hvar⟩ := Program.mem_lookups.1 hlookup
    · exact hnew v hinput hv
    · exact htarget (List.mem_append_left _ hv)
    · -- An accepted program reads its own inputs only.
      obtain ⟨-, -, -, refs, hrefs, hdeclared, -⟩ := stencilOf_ok_iff.1 hown
      exact hnew r.name (hdeclared _ ((Node.mem_names_outputFootprint hrefs).2 ⟨r, hr, rfl⟩)) hv
    · obtain ⟨k, hk⟩ := List.mem_iff_getElem?.1 he
      exact (hvars k e hk v hvar).1 (List.mem_append_left _ hv)
  · exact run_eq_own

end

/-! ## Programs one after the other -/

section

variable {d : Declared} {ps : List (Program Node)}

/-- Whatever came before, an answer is the program's own or a name leaks into it from an earlier
program. -/
theorem answers_own_or_leak {i : Nat} {p : Program Node} (h : ps[i]? = some p) :
    ∃ a, (answers d ps)[i]? = some a ∧
      (a = p.analyze ∨ Leak (d ++ (ps.take i).flatMap (·.inputNames)) p p.analyze a) := by
  induction ps generalizing d i with
  | nil => cases h
  | cons q ps ih =>
    cases i with
    | zero =>
      cases h
      exact ⟨_, rfl, by simpa using run_own_or_leak d p⟩
    | succ i =>
      obtain ⟨a, ha, hanswer⟩ := ih (d := (run d q).2) h
      refine ⟨a, ha, hanswer.imp_right fun hleak => hleak.mono fun v hv => ?_⟩
      rw [List.take_succ_cons, List.flatMap_cons, ← List.append_assoc]
      obtain hv | hv := List.mem_append.1 hv
      · exact List.mem_append_left _ (run_subset d q hv)
      · exact List.mem_append_right _ hv

theorem answers_eq_own (hd : ∀ p ∈ ps, ∀ v ∈ d, v ∉ p.lookups) (h : ps.Pairwise Program.Apart) :
    answers d ps = ps.map (·.analyze) := by
  induction ps generalizing d with
  | nil => rfl
  | cons p ps ih =>
    obtain ⟨hp, hd⟩ := List.forall_mem_cons.1 hd
    obtain ⟨hlater, h⟩ := List.pairwise_cons.1 h
    rw [answers, List.map_cons, run_eq_own hp, ih (fun q hq v hv => ?_) h]
    obtain hv | hv := List.mem_append.1 (run_subset d p hv)
    · exact hd q hq v hv
    · exact hlater q hq v hv

theorem apart_of_answers (hown : ∀ p ∈ ps, ∃ s, p.analyze = .ok s)
    (h : answers d ps = ps.map (·.analyze)) :
    (∀ p ∈ ps, ∀ v ∈ d, v ∉ p.lookups) ∧ ps.Pairwise Program.Apart := by
  induction ps generalizing d with
  | nil => exact ⟨nofun, .nil⟩
  | cons p ps ih =>
    obtain ⟨⟨s, hs⟩, hown⟩ := List.forall_mem_cons.1 hown
    obtain ⟨hp, hrest⟩ := List.cons.inj h
    obtain ⟨hd, hpairs⟩ := ih hown hrest
    simp only [run_declared (hp.trans hs), List.mem_append] at hd
    exact ⟨List.forall_mem_cons.2 ⟨(run_eq_own_iff hs).1 hp, fun q hq v hv => hd q hq v (.inl hv)⟩,
      List.pairwise_cons.2 ⟨fun q hq v hv => hd q hq v (.inr hv), hpairs⟩⟩

/-- Programs analysed one after the other. Each answer is the program's own, or an input of an
earlier program leaks into it. No name leaks if no program looks up an input of an earlier one, and
programs that are all accepted on their own get the same stencils again only in this case. -/
theorem answers_on_their_own (ps : List (Program Node)) :
    (∀ i p, ps[i]? = some p → ∃ a, (answers [] ps)[i]? = some a ∧
      (a = p.analyze ∨ Leak ((ps.take i).flatMap (·.inputNames)) p p.analyze a)) ∧
    (ps.Pairwise Program.Apart → answers [] ps = ps.map (·.analyze)) ∧
    ((∀ p ∈ ps, ∃ s, p.analyze = .ok s) →
      (answers [] ps = ps.map (·.analyze) ↔ ps.Pairwise Program.Apart)) := by
  have happart : ps.Pairwise Program.Apart → answers [] ps = ps.map (·.analyze) :=
    answers_eq_own fun _ _ _ hv => absurd hv List.not_mem_nil
  exact ⟨fun i p h => answers_own_or_leak h, happart,
    fun hown => ⟨fun h => (apart_of_answers hown h).2, happart⟩⟩

end

/-- `input v(1, 16)  output b(0, 0) = v(0, 0) + ...`, with the other arrays of the sum. -/
def summing (v : String) (others : List String) : Surface.Program where
  iterate := 1
  kernelName := "k"
  partitions := 1
  inputs := [⟨v, [1, 16]⟩]
  output :=
    { target := ⟨"b", [0, 0]⟩
      bindings := []
      value := .binary "AddSub" ((v :: others).map fun x => .operand (.ref ⟨x, [0, 0]⟩))
        (others.map fun _ => "+") }

/-- The output is not declared, so the second program may have the same. -/
theorem sums_on_their_own :
    ∃ p q, (summing "a" []).lower = .ok p ∧ (summing "c" []).lower = .ok q ∧
      [p, q].Pairwise Program.Apart ∧ answers [] [p, q] = [p.analyze, q.analyze] :=
  ⟨_, _, rfl, rfl, by decide +kernel, (answers_on_their_own _).2.1 (by decide +kernel)⟩

/-- A good program is refused the second time, also if the first had a faulty header, and a program
that reads an array it does not declare is accepted behind one that declares it. -/
theorem earlier_inputs_leak :
    ∃ p q s s', (summing "a" []).lower = .ok p ∧ (summing "c" ["a"]).lower = .ok q ∧
      p.analyze = .ok s ∧
      answers [] [p, p] = [.ok s, .error (.config (.declaredTwice "a"))] ∧
      answers [] [{ p with iterate := 0 }, p] =
        [.error (.config .zeroIterations), .error (.config (.declaredTwice "a"))] ∧
      q.analyze = .error (.undefinedVariable "a") ∧ answers [] [p, q] = [.ok s, .ok s'] :=
  ⟨_, _, _, _, rfl, rfl, rfl, rfl, rfl, rfl, rfl⟩

end Analysis

end GridSweep
