import GridSweep.Proofs.Kernel.PointFunction
import GridSweep.Proofs.Node.Meaning

/-!
# Values of statements and of point functions

A statement is evaluated binding by binding; each binding gives its name a value for what comes
after it. A point function is evaluated in the same way, from the values of its arguments. If taps
have names of their own, it has the value of the statement it was made from
(`Stencil.Consistent.statement_body`).
-/

namespace GridSweep

/-- Gives a variable a value. -/
def Assignment.bind {V : Type} (s : Assignment V) (x : String) (v : V) : Assignment V :=
  { s with var := Function.update s.var x v }

namespace Interpretation

variable {V : Type} [AddCommGroup V] {I : Interpretation V} {s s' : Assignment V}

/-- The values after some bindings. -/
def afterBindings (I : Interpretation V) (s : Assignment V) (bs : List (Binding Node)) :
    Assignment V :=
  bs.foldl (fun s b => s.bind b.name (I.value s b.value)) s

/-- The value of an output statement. -/
def statement (I : Interpretation V) (s : Assignment V) (o : Output Node) : V :=
  I.value (I.afterBindings s o.bindings) o.value

/-! ## Renamed expressions -/

theorem values_mapRefsList {f : Ref → String} {xs : List Node}
    (h : ∀ x ∈ xs, I.value s' (x.mapRefs f) = I.value s x) :
    I.values s' (Node.mapRefsList f xs) = I.values s xs := by
  rw [values_eq_map, values_eq_map, Node.mapRefsList_eq_map, List.map_map]
  exact List.map_congr_left h

/-- A renamed tree has the value of the tree, if the new names have the values of the references. -/
theorem value_mapRefs {f : Ref → String} {n : Node} {ref : Ref → Prop} {var : String → Prop}
    (h : n.Proper ref var) (href : ∀ r ∈ n.refs, s'.var (f r) = s.ref r)
    (hvar : ∀ x ∈ n.vars, s'.var x = s.var x) : I.value s' (n.mapRefs f) = I.value s n := by
  induction h with
  | @chain l first links _ _ _ ihfirst ihlinks =>
    simp only [Node.refs, Node.vars, Node.mem_refsList, Node.mem_varsList] at href hvar
    have hall : ∀ x ∈ first :: links.map (·.2), I.value s' (x.mapRefs f) = I.value s x := by
      intro x hx
      have hrefx := fun r hr => href r ⟨x, hx, hr⟩
      have hvarx := fun v hv => hvar v ⟨x, hx, hv⟩
      rcases List.mem_cons.1 hx with rfl | hmem
      · exact ihfirst hrefx hvarx
      · obtain ⟨k, hk, rfl⟩ := List.mem_map.1 hmem
        exact ihlinks k hk hrefx hvarx
    rw [Node.mapRefs, value, value, values_mapRefsList hall]
  | unary _ _ ih => rw [Node.mapRefs, value, value, ih href hvar]
  | @call g xs _ _ _ ih =>
    simp only [Node.refs, Node.vars, Node.mem_refsList, Node.mem_varsList] at href hvar
    rw [Node.mapRefs, value, value, values_mapRefsList fun x hx =>
      ih x hx (fun r hr => href r ⟨x, hx, hr⟩) fun v hv => hvar v ⟨x, hx, hv⟩]
  | @ref r _ => exact href r (by simp [Node.refs])
  | num => rfl
  | paren _ ih => rw [Node.mapRefs, value_ofNode, value, ih href hvar]
  | @var x _ => exact hvar x (by simp [Node.vars])

theorem afterBindings_take {bs : List (Binding Node)} {i : Nat} {b : Binding Node}
    (h : bs[i]? = some b) :
    I.afterBindings s (bs.take (i + 1)) = (I.afterBindings s (bs.take i)).bind b.name
      (I.value (I.afterBindings s (bs.take i)) b.value) := by
  rw [List.take_add_one, h, afterBindings, List.foldl_append]
  rfl

/-- Simplification keeps the value of a statement, if every fold is exact. -/
theorem statement_simplifyOutput {o : Output Node} (h : o.Proper)
    (hexact : ∀ e ∈ o.expressions, ∀ f ∈ e.folds, I.Exact f) :
    I.statement s (Node.simplifyOutput o) = I.statement s o := by
  have hvalue (s : Assignment V) (e : Node) (he : e ∈ o.expressions) :
      I.value s e.simplify = I.value s e := value_simplify (h e he) (hexact e he)
  have hbindings : I.afterBindings s (Node.simplifyOutput o).bindings =
      I.afterBindings s o.bindings := by
    simp only [afterBindings, Node.simplifyOutput, List.foldl_map]
    refine List.foldl_ext _ _ _ fun s b hb => ?_
    rw [hvalue s _ (List.mem_append_left _ (List.mem_map_of_mem hb))]
  rw [statement, statement, hbindings]
  exact hvalue _ _ (List.mem_append_right _ List.mem_cons_self)

end Interpretation

/-! ## Renamed statements -/

/-- Tap names have the values of the references of a statement, and the free and the bound names
have the same values on both sides. -/
structure Assignment.Agrees {V : Type} (s : Stencil) (bound : List String) (a' a : Assignment V) :
    Prop where
  taps : ∀ r, s.output.Reads r → a'.var (Node.tapOf s.outputIdx r) = a.ref r
  free : ∀ x ∈ s.scalars, a'.var x = a.var x
  bound : ∀ x ∈ bound, a'.var x = a.var x

/-- Parameters have the values of the arguments in their places. -/
def Assignment.ofArguments {V : Type} [Zero V] (params : List String) (args : List V) :
    Assignment V where
  ref _ := 0
  var x := ((params.zip args).lookup x).getD 0

/-- The reference that a tap stands for. -/
def Tap.place (t : Tap) (origin : List Int) : Ref :=
  ⟨t.var, List.zipWith (· + ·) t.offset origin⟩

/-- What a point function is called with: the elements at the taps, and the scalars. -/
def Stencil.arguments {V : Type} (s : Stencil) (a : Assignment V) : List V :=
  s.taps.map (fun t => a.ref (t.place s.outputIdx)) ++ s.scalars.map a.var

theorem zipWith_add_sub {xs ys : List Int} (h : xs.length = ys.length) :
    List.zipWith (· + ·) (List.zipWith (· - ·) xs ys) ys = xs := by
  induction xs generalizing ys with
  | nil => rfl
  | cons x xs ih =>
    cases ys with
    | nil => simp at h
    | cons y ys => simp [ih (Nat.succ.inj h)]

theorem lookup_of_mem {α β : Type} [DecidableEq α] {xs : List (α × β)} {k : α} {v : β}
    (h : (xs.map (·.1)).Nodup) (hmem : (k, v) ∈ xs) : xs.lookup k = some v := by
  induction xs with
  | nil => cases hmem
  | cons x xs ih =>
    obtain ⟨hnew, hrest⟩ := List.nodup_cons.1 h
    rcases List.mem_cons.1 hmem with rfl | hmem
    · simp
    · have hne : k ≠ x.1 := by
        rintro rfl
        exact hnew (List.mem_map.2 ⟨_, hmem, rfl⟩)
      rw [List.lookup_cons, beq_eq_false_iff_ne.2 hne]
      exact ih hrest hmem

theorem Assignment.var_ofArguments {V : Type} [Zero V] {params : List String} {args : List V}
    (hnodup : params.Nodup) (hlen : params.length = args.length) {x : String} {v : V}
    (h : (x, v) ∈ params.zip args) : (ofArguments params args).var x = v := by
  have hkeys : ((params.zip args).map (·.1)).Nodup := by
    rwa [List.map_fst_zip (by omega)]
  change ((params.zip args).lookup x).getD 0 = v
  rw [lookup_of_mem hkeys h, Option.getD_some]

namespace Stencil.Consistent

open Interpretation Assignment

variable {V : Type} [AddCommGroup V] {I : Interpretation V} {a a' : Assignment V} {s : Stencil}
  (h : s.Consistent)
include h

/-- Expression number `i` has the same value in both forms. -/
theorem value_body {i : Nat} {e : Node} (he : s.output.expressions[i]? = some e)
    (hagrees : Agrees s (s.output.boundNames.take i) a' a) :
    I.value a' (e.mapRefs (Node.tapOf s.outputIdx)) = I.value a e := by
  have hmem := List.mem_of_getElem? he
  refine value_mapRefs (h.proper e hmem)
    (fun r hr => hagrees.taps r (Output.reads_iff.2 ⟨e, hmem, hr⟩)) fun x hx => ?_
  by_cases hbound : x ∈ s.output.boundNames
  · exact hagrees.bound x (h.bound_before i e he x hx hbound)
  · apply hagrees.free
    rw [h.scalars, Output.mem_freeNames]
    exact ⟨⟨e, hmem, Node.mem_vars_iff.1 hx⟩, hbound⟩

/-- One more binding gives its name the same value on both sides. -/
theorem agrees_bind (hapart : ∀ t ∈ s.taps, t.name ∉ s.output.boundNames) {i : Nat}
    {b : Binding Node} (hb : s.output.bindings[i]? = some b)
    (hagrees : Agrees s (s.output.boundNames.take i) a' a) :
    Agrees s (s.output.boundNames.take (i + 1))
      (a'.bind b.name (I.value a' (b.value.mapRefs (Node.tapOf s.outputIdx))))
      (a.bind b.name (I.value a b.value)) := by
  have hvalue := h.value_body (I := I) (Output.getElem?_expressions hb) hagrees
  have hname : s.output.boundNames[i]? = some b.name := by simp [Output.boundNames, hb]
  have hbound := List.mem_of_getElem? hname
  refine ⟨fun r hr => ?_, fun x hx => ?_, fun x hx => ?_⟩
  · have htap := h.mem_tapNames.2 ⟨r, hr, rfl⟩
    obtain ⟨t, ht, hname⟩ := List.mem_map.1 htap
    have hne : Node.tapOf s.outputIdx r ≠ b.name := by
      rintro heq
      apply hapart t ht
      rwa [hname, heq]
    exact (Function.update_of_ne hne _ _).trans (hagrees.taps r hr)
  · have hne : x ≠ b.name := by
      rintro rfl
      rw [h.scalars, Output.mem_freeNames] at hx
      exact hx.2 hbound
    simp only [Assignment.bind, Function.update_of_ne hne]
    exact hagrees.free x hx
  · simp only [Assignment.bind, hvalue]
    by_cases hne : x = b.name
    · rw [hne, Function.update_self, Function.update_self]
    · rw [Function.update_of_ne hne, Function.update_of_ne hne]
      apply hagrees.bound
      rw [List.take_add_one, hname] at hx
      simpa [hne] using hx

/-- After all bindings both sides still agree. -/
theorem agrees_afterBindings (hapart : ∀ t ∈ s.taps, t.name ∉ s.output.boundNames)
    (hagrees : Agrees s [] a' a) :
    Agrees s s.output.boundNames (I.afterBindings a' s.body.bindings)
      (I.afterBindings a s.output.bindings) := by
  have hgen (n : Nat) (hn : n ≤ s.output.bindings.length) :
      Agrees s (s.output.boundNames.take n) (I.afterBindings a' (s.body.bindings.take n))
        (I.afterBindings a (s.output.bindings.take n)) := by
    induction n with
    | zero => simpa [afterBindings] using hagrees
    | succ n ih =>
      have hb := List.getElem?_eq_getElem hn
      have hb' : s.body.bindings[n]? = some ⟨s.output.bindings[n].name,
          s.output.bindings[n].value.mapRefs (Node.tapOf s.outputIdx)⟩ := by
        simp [body, Output.mapRefs, hb]
      rw [afterBindings_take hb, afterBindings_take hb']
      exact h.agrees_bind hapart hb (ih (Nat.le_of_succ_le hn))
  have hall := hgen s.output.bindings.length (Nat.le_refl _)
  rwa [List.take_length, List.take_of_length_le (by simp [Output.boundNames]),
    List.take_of_length_le (by simp [body, Output.mapRefs])] at hall

/-- The statement over taps has the value of the statement. -/
theorem statement_body (hapart : ∀ t ∈ s.taps, t.name ∉ s.output.boundNames)
    (hagrees : Agrees s [] a' a) : I.statement a' s.body = I.statement a s.output := by
  have hall := h.agrees_afterBindings (I := I) hapart hagrees
  refine h.value_body s.output.getElem?_expressions_value ?_
  rwa [List.take_length]

/-- The arguments of a call agree with the values they are taken from. -/
theorem agrees_ofArguments (hnodup : (s.taps.map (·.name) ++ s.scalars).Nodup) :
    Agrees s [] (.ofArguments (s.taps.map (·.name) ++ s.scalars) (s.arguments a)) a := by
  have hzip : (s.taps.map (·.name) ++ s.scalars).zip (s.arguments a) =
      s.taps.map (fun t => (t.name, a.ref (t.place s.outputIdx))) ++
        s.scalars.map fun x => (x, a.var x) := by
    rw [arguments, List.zip_append (by simp), List.zip_map', ← List.map_prod_left_eq_zip]
  have hlen : (s.taps.map (·.name) ++ s.scalars).length = (s.arguments a).length := by
    simp [arguments]
  have hdims := (Node.outputFootprint_eq_ok.1 h.footprint).1
  rw [h.target] at hdims
  refine ⟨fun r hr => var_ofArguments hnodup hlen ?_, fun x hx => var_ofArguments hnodup hlen ?_,
    fun x hx => nomatch hx⟩
  · have hplace : (s.tapFor r).place s.outputIdx = r := by
      simp only [tapFor, Tap.place, Ref.offsetFrom, zipWith_add_sub (hdims r hr)]
    have htap := h.mem_taps_iff.2 ⟨r, hr, rfl⟩
    rw [hzip]
    exact List.mem_append_left _ (List.mem_map.2 ⟨_, htap, by rw [hplace]; rfl⟩)
  · rw [hzip]
    exact List.mem_append_right _ (List.mem_map_of_mem hx)

end Stencil.Consistent

end GridSweep
