import GridSweep.Proofs.Stencil.Footprints
import Mathlib.Data.List.Induction

/-!
# Statements

What the expressions of an output statement read and bind. Its free names are the variables that no
binding defines, in order of first use. A statement that was lowered keeps its references and its
free names when it is simplified.
-/

namespace GridSweep

/-! ## Names in order of first use -/

section

variable {α : Type} [DecidableEq α] {x : α} {bound seen xs : List α}

/-- Adds what is neither bound nor there yet. -/
def addNew (bound seen : List α) (x : α) : List α :=
  if x ∈ bound ∨ x ∈ seen then seen else seen ++ [x]

theorem foldl_addNew (bound seen xs : List α) :
    xs.foldl (addNew bound) seen =
      seen ++ (xs.filter fun y => y ∉ bound ∧ y ∉ seen).eraseDups := by
  induction xs generalizing seen with
  | nil => simp
  | cons x xs ih =>
    rw [List.foldl_cons, ih, addNew]
    by_cases hx : x ∈ bound ∨ x ∈ seen
    · rw [if_pos hx, List.filter_cons_of_neg (by simpa [imp_iff_not_or] using hx)]
    · have hfilter : (xs.filter fun y => y ∉ bound ∧ y ∉ seen ++ [x]) =
          (xs.filter fun y => y ∉ bound ∧ y ∉ seen).filter fun y => !y == x := by
        rw [List.filter_filter]
        refine List.filter_congr fun y _ => ?_
        rw [Bool.eq_iff_iff]
        simp [and_left_comm, and_comm]
      rw [if_neg hx, hfilter, List.filter_cons_of_pos (by simpa using hx), List.eraseDups_cons,
        List.append_assoc, List.singleton_append]

theorem foldl_addNew_nil (xs : List α) : xs.foldl (addNew []) [] = xs.eraseDups := by
  rw [foldl_addNew, List.nil_append, List.filter_eq_self.2 (by simp)]

theorem mem_foldl_addNew :
    x ∈ xs.foldl (addNew bound) seen ↔ x ∈ seen ∨ x ∈ xs ∧ x ∉ bound := by
  rw [foldl_addNew]
  by_cases hx : x ∈ seen <;> simp [hx]

theorem nodup_eraseDups (xs : List α) : xs.eraseDups.Nodup := by
  rw [← foldl_addNew_nil]
  refine foldl_preserves (P := List.Nodup) (fun seen x hseen => ?_) List.nodup_nil
  unfold addNew
  split
  · exact hseen
  · next hx =>
    rw [List.nodup_append]
    refine ⟨hseen, List.pairwise_singleton _ x, fun y hy z hz heq => hx (.inr ?_)⟩
    rwa [← List.mem_singleton.1 hz, ← heq]

/-- Leaving out repetitions first changes nothing. -/
theorem foldl_addNew_eraseDups (bound seen xs : List α) :
    xs.eraseDups.foldl (addNew bound) seen = xs.foldl (addNew bound) seen := by
  rw [← foldl_addNew_nil]
  induction xs using List.reverseRecOn with
  | nil => rfl
  | append_singleton xs x ih =>
    rw [List.foldl_append, List.foldl_append, ← ih]
    simp only [List.foldl_cons, List.foldl_nil]
    rw [addNew]
    split
    · next hx =>
      have hin : x ∈ xs.foldl (addNew []) [] := by simpa using hx
      rw [addNew, if_pos]
      rw [mem_foldl_addNew]
      tauto
    · rw [List.foldl_append]
      rfl

end

theorem Node.distinctVars_eq (n : Node) : n.distinctVars = n.vars.eraseDups := by
  rw [← foldl_addNew_nil]
  unfold Node.distinctVars
  congr
  funext seen x
  simp [addNew]

namespace Output

variable {o : Output Node}

/-- The names that a statement binds, in order. -/
def boundNames (o : Output Node) : List String := o.bindings.map (·.name)

/-- The variables that no binding defines, in order of first use. -/
def freeNames (o : Output Node) : List String :=
  ((o.expressions.flatMap (Node.gather Node.var?)).filter (· ∉ o.boundNames)).eraseDups

theorem freeNames_eq (o : Output Node) :
    o.freeNames = (o.expressions.flatMap Node.vars).foldl (addNew o.boundNames) [] := by
  rw [foldl_addNew, freeNames, ← funext Node.vars_eq]
  simp

theorem mem_freeNames {x : String} :
    x ∈ o.freeNames ↔ (∃ e ∈ o.expressions, .var x ∈ e.parts) ∧ x ∉ o.boundNames := by
  rw [freeNames_eq, mem_foldl_addNew]
  simp [Node.mem_vars_iff]

/-! ## Simplified statements -/

theorem boundNames_simplifyOutput (o : Output Node) :
    (Node.simplifyOutput o).boundNames = o.boundNames := by
  simp [boundNames, Node.simplifyOutput]

theorem expressions_simplifyOutput (o : Output Node) :
    (Node.simplifyOutput o).expressions = o.expressions.map Node.simplify := by
  simp [expressions, Node.simplifyOutput]

/-- All expressions of a statement are proper. -/
def Proper (o : Output Node) : Prop :=
  ∀ e ∈ o.expressions, e.Proper (fun _ => True) (fun _ => True)

section

variable (h : o.Proper)
include h

theorem proper_simplifyOutput : (Node.simplifyOutput o).Proper := by
  intro e he
  rw [expressions_simplifyOutput] at he
  obtain ⟨e, hmem, rfl⟩ := List.mem_map.1 he
  exact (h e hmem).simplify

theorem reads_simplifyOutput {r : Ref} : (Node.simplifyOutput o).Reads r ↔ o.Reads r := by
  simp only [reads_iff, expressions_simplifyOutput, List.mem_map, exists_exists_and_eq_and]
  exact exists_congr fun e => and_congr_right fun he => by rw [(h e he).refs_simplify]

theorem freeNames_simplifyOutput : (Node.simplifyOutput o).freeNames = o.freeNames := by
  rw [freeNames_eq, freeNames_eq, boundNames_simplifyOutput, expressions_simplifyOutput,
    List.flatMap_map, List.flatMap_congr fun e he => (h e he).vars_simplify]

/-- Each expression has the variables it was written with. -/
theorem forall_vars_simplifyOutput {Q : Nat → String → Prop} :
    (∀ (k : Nat) e, (Node.simplifyOutput o).expressions[k]? = some e → ∀ x ∈ e.vars, Q k x) ↔
      ∀ (k : Nat) e, o.expressions[k]? = some e → ∀ x, .var x ∈ e.parts → Q k x := by
  simp only [expressions_simplifyOutput, List.getElem?_map, Option.map_eq_some_iff,
    forall_exists_index, and_imp, forall_apply_eq_imp_iff₂, ← Node.mem_vars_iff]
  refine forall₃_congr fun k e he => ?_
  rw [(h e (List.mem_of_getElem? he)).vars_simplify]

end

end Output

namespace Surface

theorem proper_of_lowerOutput {o : Output Expr} {o' : Output Node} (h : lowerOutput o = .ok o') :
    o'.Proper := by
  obtain ⟨bs, hbs, h⟩ := bind_eq_ok.1 h
  obtain ⟨e, he, h⟩ := bind_eq_ok.1 h
  cases h
  intro e' he'
  simp only [Output.expressions, List.mem_append, List.mem_map, List.mem_singleton] at he'
  rcases he' with ⟨b', hb', rfl⟩ | rfl
  · obtain ⟨b, -, hb⟩ := exists_left_of_forall₂ (mapM_eq_ok_iff.1 hbs) hb'
    obtain ⟨e', he', hb⟩ := bind_eq_ok.1 hb
    cases hb
    exact Expr.proper_of_lower he'
  · exact Expr.proper_of_lower he

theorem Program.proper_of_lower {p : Program} {p' : GridSweep.Program Node}
    (h : p.lower = .ok p') : p'.output.Proper := by
  obtain ⟨o, ho, h⟩ := bind_eq_ok.1 h
  cases h
  exact proper_of_lowerOutput ho

end Surface

end GridSweep
