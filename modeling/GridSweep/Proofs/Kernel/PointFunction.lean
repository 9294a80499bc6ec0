import GridSweep.Proofs.Kernel.Generated
import GridSweep.Proofs.Stencil.Accepted

/-!
# Point functions

A point function is the printed form of a statement without references: the statement of the
stencil with every reference replaced by the name of its tap (`PointFunction.Prints`). Its variables
are the parameters and the bindings in front of them, and every parameter is used.
-/

namespace GridSweep

/-! ## Taps -/

namespace Stencil

variable {s : Stencil} {t : Tap} {x : String}

theorem mem_taps : t ∈ s.taps ↔
    Ordered.Has s.refs t.var t.offset ∧ t.name = Offset.tapName t.var t.offset := by
  simp only [taps, List.mem_flatMap, List.mem_map, Prod.exists]
  constructor
  · rintro ⟨v, os, hos, o, ho, rfl⟩
    exact ⟨⟨os, hos, ho⟩, rfl⟩
  · rintro ⟨⟨os, hos, ho⟩, hname⟩
    obtain ⟨v, o, name⟩ := t
    exact ⟨v, os, hos, o, ho, by rw [← hname]⟩

/-- Offsets of rows and columns are told apart by their taps' names. -/
theorem nodup_tapNames (h : Ascending s.refs)
    (hoffsets : ∀ p ∈ s.refs, p.2.Pairwise (· < ·))
    (hdims : ∀ v o, Ordered.Has s.refs v o → o.length = 2) : (s.taps.map (·.name)).Nodup := by
  have htaps : s.taps.Nodup := by
    refine List.pairwise_flatMap.2
      ⟨fun p hp => ?_, h.imp fun {p q} hlt t ht u hu heq => ?_⟩
    · rw [List.pairwise_map]
      exact (hoffsets p hp).imp fun hlt heq => ne_of_lt hlt (congrArg Tap.offset heq)
    · obtain ⟨o, -, rfl⟩ := List.mem_map.1 ht
      obtain ⟨o', -, rfl⟩ := List.mem_map.1 hu
      exact ne_of_lt hlt (congrArg Tap.var heq)
  have hpair {t : Tap} (ht : t ∈ s.taps) :
      ∃ r c, t = ⟨t.var, [r, c], Offset.tapName t.var [r, c]⟩ := by
    obtain ⟨hhas, hname⟩ := mem_taps.1 ht
    obtain ⟨r, c, hpair⟩ := List.length_eq_two.1 (hdims _ _ hhas)
    refine ⟨r, c, ?_⟩
    rw [← hpair, ← hname]
  refine List.pairwise_map.2 (List.Pairwise.imp_of_mem (fun {t u} ht hu hne heq => hne ?_) htaps)
  obtain ⟨r, c, ht⟩ := hpair ht
  obtain ⟨r', c', hu⟩ := hpair hu
  rw [ht, hu] at heq
  obtain ⟨hv, rfl, rfl⟩ := Offset.tapName_inj heq
  rw [ht, hu, hv]

/-- The tap that a reference becomes. -/
def tapFor (s : Stencil) (r : Ref) : Tap :=
  ⟨r.name, r.offsetFrom s.outputIdx, Node.tapOf s.outputIdx r⟩

/-- There is a tap for each reference, and no other. -/
theorem Consistent.mem_taps_iff (h : s.Consistent) :
    t ∈ s.taps ↔ ∃ r, s.output.Reads r ∧ s.tapFor r = t := by
  have horigin : s.output.target.idx = s.outputIdx := by rw [h.target]
  rw [mem_taps, Node.has_outputFootprint h.footprint, horigin]
  constructor
  · rintro ⟨⟨r, hr, hv, ho⟩, hname⟩
    refine ⟨r, hr, ?_⟩
    obtain ⟨v, o, name⟩ := t
    dsimp only at hv ho hname
    rw [hname, ← hv, ← ho]
    rfl
  · rintro ⟨r, hr, rfl⟩
    exact ⟨⟨r, hr, rfl, rfl⟩, rfl⟩

theorem Consistent.mem_tapNames (h : s.Consistent) :
    x ∈ s.taps.map (·.name) ↔ ∃ r, s.output.Reads r ∧ Node.tapOf s.outputIdx r = x := by
  simp only [List.mem_map, h.mem_taps_iff]
  constructor
  · rintro ⟨_, ⟨r, hr, rfl⟩, rfl⟩
    exact ⟨r, hr, rfl⟩
  · rintro ⟨r, hr, rfl⟩
    exact ⟨_, ⟨r, hr, rfl⟩, rfl⟩

end Stencil

/-! ## The statement behind a point function -/

namespace Output

variable {o : Output Node} {f : Ref → String} {i : Nat} {b : Binding Node}

theorem getElem?_expressions (h : o.bindings[i]? = some b) : o.expressions[i]? = some b.value := by
  have hlt : i < (o.bindings.map (·.value)).length := by
    simpa using (List.getElem?_eq_some_iff.1 h).1
  rw [expressions, List.getElem?_append_left hlt, List.getElem?_map, h]
  rfl

theorem getElem?_expressions_value (o : Output Node) :
    o.expressions[o.boundNames.length]? = some o.value := by
  simp [expressions, boundNames]

/-- Replaces each reference of a statement by a variable. The target stays. -/
def mapRefs (f : Ref → String) (o : Output Node) : Output Node :=
  { o with
    bindings := o.bindings.map fun b => ⟨b.name, b.value.mapRefs f⟩
    value := o.value.mapRefs f }

theorem expressions_mapRefs : (o.mapRefs f).expressions = o.expressions.map (Node.mapRefs f) := by
  simp [expressions, mapRefs]

theorem boundNames_mapRefs : (o.mapRefs f).boundNames = o.boundNames := by
  simp [boundNames, mapRefs]

theorem Proper.not_reads_mapRefs (h : o.Proper) (r : Ref) : ¬ (o.mapRefs f).Reads r := by
  rw [reads_iff, expressions_mapRefs]
  rintro ⟨e', he', hr⟩
  obtain ⟨e, he, rfl⟩ := List.mem_map.1 he'
  rw [(h e he).refs_mapRefs] at hr
  cases hr

end Output

/-- The statement over taps. -/
def Stencil.body (s : Stencil) : Output Node := s.output.mapRefs (Node.tapOf s.outputIdx)

/-- A point function takes the taps and the scalars, and is printed from the statement over taps. -/
structure PointFunction.Prints (f : PointFunction) (s : Stencil) : Prop where
  renamed : ∀ e ∈ s.output.expressions,
    e.renameRefs s.outputIdx = .ok (e.mapRefs (Node.tapOf s.outputIdx))
  params : f.params = s.taps.map (·.name) ++ s.scalars
  scalars : f.scalars = s.scalars
  lets : f.lets = s.body.bindings.map fun b => (b.name, b.value.text)
  result : f.result = s.body.value.text

theorem PointFunction.Prints.names_lets {f : PointFunction} {s : Stencil} (h : f.Prints s) :
    f.lets.map (·.1) = s.output.boundNames := by
  rw [h.lets, List.map_map, ← Output.boundNames_mapRefs]
  rfl

theorem prints_of_pointFunction {s : Stencil} {f : PointFunction}
    (h : Generate.pointFunction s = .ok f) : f.Prints s := by
  obtain ⟨lets, hlets, h⟩ := bind_eq_ok.1 h
  obtain ⟨result, hresult, h⟩ := bind_eq_ok.1 h
  cases h
  obtain rfl := Node.eq_mapRefs_of_renameRefs hresult
  have hbindings : ∀ b ∈ s.output.bindings,
      b.value.renameRefs s.outputIdx = .ok (b.value.mapRefs (Node.tapOf s.outputIdx)) := by
    intro b hb
    obtain ⟨_, -, hbind⟩ := exists_right_of_forall₂ (mapM_eq_ok_iff.1 hlets) hb
    obtain ⟨e, he, -⟩ := bind_eq_ok.1 hbind
    rw [he, Node.eq_mapRefs_of_renameRefs he]
  refine ⟨fun e he => ?_, rfl, rfl, ?_, rfl⟩
  · rcases List.mem_append.1 he with he | he
    · obtain ⟨b, hb, rfl⟩ := List.mem_map.1 he
      exact hbindings b hb
    · rw [List.mem_singleton.1 he, hresult]
  · rw [mapM_eq_ok_map (g := fun b => (b.name, (b.value.mapRefs (Node.tapOf s.outputIdx)).text))
      fun b hb => by simp [hbindings b hb]] at hlets
    rw [← Except.ok.inj hlets]
    simp [Stencil.body, Output.mapRefs]

/-! ## Variables and parameters -/

namespace Stencil.Consistent

variable {s : Stencil} {x : String} (h : s.Consistent)
include h

/-- An expression over taps uses taps, scalars and bindings in front of it. -/
theorem mem_of_mem_vars_body {i : Nat} {e : Node} (he : s.body.expressions[i]? = some e)
    (hx : x ∈ e.vars) :
    x ∈ s.taps.map (·.name) ++ s.scalars ∨ x ∈ s.output.boundNames.take i := by
  rw [body, Output.expressions_mapRefs, List.getElem?_map, Option.map_eq_some_iff] at he
  obtain ⟨e, he, rfl⟩ := he
  have hmem := List.mem_of_getElem? he
  rw [List.mem_append, h.mem_tapNames, h.scalars, Output.mem_freeNames]
  rcases (h.proper e hmem).mem_vars_mapRefs.1 hx with hx | ⟨r, hr, hname⟩
  · by_cases hbound : x ∈ s.output.boundNames
    · exact .inr (h.bound_before i e he x hx hbound)
    · exact .inl (.inr ⟨⟨e, hmem, Node.mem_vars_iff.1 hx⟩, hbound⟩)
  · exact .inl (.inl ⟨r, Output.reads_iff.2 ⟨e, hmem, hr⟩, hname⟩)

/-- Every tap and every scalar is used. -/
theorem exists_mem_vars_body (hx : x ∈ s.taps.map (·.name) ++ s.scalars) :
    ∃ e ∈ s.body.expressions, x ∈ e.vars := by
  have huse (e : Node) (he : e ∈ s.output.expressions)
      (hx : x ∈ e.vars ∨ ∃ r ∈ e.refs, Node.tapOf s.outputIdx r = x) :
      ∃ e ∈ s.body.expressions, x ∈ e.vars := by
    rw [body, Output.expressions_mapRefs]
    exact ⟨_, List.mem_map_of_mem he, (h.proper e he).mem_vars_mapRefs.2 hx⟩
  rcases List.mem_append.1 hx with hx | hx
  · obtain ⟨r, hr, hname⟩ := h.mem_tapNames.1 hx
    obtain ⟨e, he, hr⟩ := Output.reads_iff.1 hr
    exact huse e he (.inr ⟨r, hr, hname⟩)
  · rw [h.scalars, Output.mem_freeNames] at hx
    obtain ⟨⟨e, he, hx⟩, -⟩ := hx
    exact huse e he (.inl (Node.mem_vars_iff.2 hx))

end Stencil.Consistent

/-- The point functions of a design have no variables besides their parameters and the bindings in
front, no references, and no parameter that they do not use. -/
theorem Design.point_function_closed {q : Surface.Program} {p : Program Node} {s : Stencil}
    {target : Accelerator} {design : Design} {k : Kernel} (hp : q.lower = .ok p)
    (hs : p.analyze = .ok s) (hd : s.generate target = .ok design) (hk : k ∈ design.kernels) :
    k.point.Prints s ∧
      (∀ (i : Nat) b, s.body.bindings[i]? = some b → ∀ x, .var x ∈ b.value.parts →
        x ∈ k.point.params ∨ x ∈ (k.point.lets.map (·.1)).take i) ∧
      (∀ x, .var x ∈ s.body.value.parts →
        x ∈ k.point.params ∨ x ∈ k.point.lets.map (·.1)) ∧
      (∀ r, ¬ s.body.Reads r) ∧
      ∀ x ∈ k.point.params, ∃ e ∈ s.body.expressions, .var x ∈ e.parts := by
  have hcons := Analysis.consistent_of_analyze (Surface.Program.proper_of_lower hp) hs
  obtain ⟨m, plan, hbuilt⟩ := Generate.built_of_generate hd
  have hprints := prints_of_pointFunction (hbuilt.point k hk)
  rw [hprints.names_lets, hprints.params]
  simp only [← Node.mem_vars_iff]
  refine ⟨hprints, fun i b hb x hx => ?_, fun x hx => ?_, hcons.proper.not_reads_mapRefs,
    fun x => hcons.exists_mem_vars_body⟩
  · exact hcons.mem_of_mem_vars_body (Output.getElem?_expressions hb) hx
  · have hvalue := s.body.getElem?_expressions_value
    rw [Stencil.body, Output.boundNames_mapRefs] at hvalue
    simpa using hcons.mem_of_mem_vars_body hvalue hx

theorem weighted_generated : ∃ p s design k, weighted.lower = .ok p ∧ p.analyze = .ok s ∧
    s.generate ⟨16, 512, 2, 64⟩ = .ok design ∧ k ∈ design.kernels ∧
    k.point.params = ["a_0_m1", "a_1_0", "w_0_0", "k"] ∧ k.point.lets.map (·.1) = ["d"] :=
  ⟨_, _, _, _, rfl, rfl, rfl, List.mem_cons_self, rfl, rfl⟩

/-- The scalar is used by the binding, and the binding by the result. -/
theorem weighted_point_closed : ∃ p s design k, weighted.lower = .ok p ∧ p.analyze = .ok s ∧
    s.generate ⟨16, 512, 2, 64⟩ = .ok design ∧ k ∈ design.kernels ∧ k.point.Prints s ∧
    (∀ b, s.body.bindings[0]? = some b → ∀ x, .var x ∈ b.value.parts →
      x ∈ ["a_0_m1", "a_1_0", "w_0_0", "k"]) ∧
    (∀ x, .var x ∈ s.body.value.parts → x ∈ ["a_0_m1", "a_1_0", "w_0_0", "k"] ∨ x ∈ ["d"]) ∧
    (∀ r, ¬ s.body.Reads r) ∧ ∃ e ∈ s.body.expressions, .var "k" ∈ e.parts := by
  obtain ⟨p, s, design, k, hp, hs, hd, hk, hparams, hlets⟩ := weighted_generated
  obtain ⟨hprints, hbinding, hvalue, hrefs, hused⟩ := Design.point_function_closed hp hs hd hk
  rw [hparams, hlets] at hvalue
  refine ⟨p, s, design, k, hp, hs, hd, hk, hprints, fun b hb x hx => ?_, hvalue, hrefs,
    hused "k" (by simp [hparams])⟩
  simpa [hparams] using hbinding 0 b hb x hx

end GridSweep
