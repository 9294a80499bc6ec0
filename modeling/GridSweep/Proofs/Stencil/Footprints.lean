import GridSweep.Proofs.Node.Parts
import GridSweep.Proofs.Stencil.WellFormed

/-!
# What footprints hold

A footprint is a map of sets: its names ascend, every name has an offset, and the offsets of a name
ascend (`Footprint.Sorted`). The footprint of an output statement exists if all references have the
arity of the target, and then it has the offsets of the references and no others
(`has_outputFootprint`).
-/

namespace GridSweep

open Ordered (Has)

/-- Where a reference stands, seen from the output point. -/
def Ref.offsetFrom (r : Ref) (origin : List Int) : Offset := List.zipWith (· - ·) r.idx origin

theorem relative_eq_ok {idx origin : List Int} {o : Offset} :
    Offset.relative idx origin = .ok o ↔
      idx.length = origin.length ∧ o = List.zipWith (· - ·) idx origin := by
  unfold Offset.relative
  split
  · next h => simp [h, eq_comm]
  · next h => simp [h]

namespace Footprint

variable {f g : Footprint} {name v : String} {o x : Offset} {os : List Offset}
  {qs : List (String × Offset)} {refs : List Ref} {origin : List Int}

/-- The names ascend, and the offsets of each name do. -/
structure Sorted (f : Footprint) : Prop where
  ascending : Ascending f
  offsets : ∀ p ∈ f, p.2 ≠ [] ∧ p.2.Pairwise (· < ·)

/-- Inserts offsets one after the other. -/
def insertAll (f : Footprint) (qs : List (String × Offset)) : Footprint :=
  qs.foldl (fun f q => f.insert q.1 q.2) f

theorem sorted_nil : Sorted [] := ⟨List.Pairwise.nil, List.forall_mem_nil _⟩

theorem Sorted.insert (h : f.Sorted) (name : String) (o : Offset) : (f.insert name o).Sorted := by
  refine ⟨ascending_insert h.ascending name o,
    forall_mem_alter (P := fun os => os ≠ [] ∧ os.Pairwise (· < ·)) ?_ ?_ h.offsets⟩
  · simp [Ordered.insert]
  · rintro os ⟨-, hos⟩
    exact ⟨List.ne_nil_of_mem (Ordered.mem_insert.2 (.inl rfl)), pairwise_insert hos o⟩

theorem Sorted.insertAll (h : f.Sorted) (qs : List (String × Offset)) : (f.insertAll qs).Sorted :=
  foldl_preserves (fun _ q hf => hf.insert q.1 q.2) h

theorem has_insertAll : Has (f.insertAll qs) v x ↔ (v, x) ∈ qs ∨ Has f v x := by
  unfold Footprint.insertAll
  induction qs generalizing f with
  | nil => simp
  | cons q qs ih =>
    rw [List.foldl_cons, ih, List.mem_cons, Footprint.insert, has_alter_insert, Prod.ext_iff,
      or_left_comm, or_assoc]

theorem union_eq (f g : Footprint) :
    f.union g = f.insertAll (g.flatMap fun p => p.2.map (p.1, ·)) := by
  simp only [union, insertAll, List.foldl_flatMap, List.foldl_map]

theorem has_union : Has (f.union g) v x ↔ Has f v x ∨ Has g v x := by
  rw [union_eq, has_insertAll, or_comm]
  refine or_congr_right ?_
  simp only [List.mem_flatMap, List.mem_map, Prod.mk.injEq]
  constructor
  · rintro ⟨⟨_, os⟩, hp, _, ho, rfl, rfl⟩
    exact ⟨os, hp, ho⟩
  · rintro ⟨os, hp, ho⟩
    exact ⟨(v, os), hp, x, ho, rfl, rfl⟩

theorem Sorted.has_iff (h : f.Sorted) (hv : f.get? v = some os) : Has f v x ↔ x ∈ os := by
  constructor
  · rintro ⟨os', hmem, hx⟩
    have hsame := h.ascending.get? hmem
    rw [show Ordered.get? v f = some os from hv] at hsame
    exact Option.some.inj hsame ▸ hx
  · exact fun hx => ⟨os, mem_of_get? hv, hx⟩

/-- Every name of a footprint has an offset. -/
theorem Sorted.mem_names_iff (h : f.Sorted) : v ∈ f.map (·.1) ↔ ∃ x, Has f v x := by
  constructor
  · intro hv
    obtain ⟨⟨_, os⟩, hp, rfl⟩ := List.mem_map.1 hv
    obtain ⟨x, hx⟩ := List.exists_mem_of_ne_nil _ (h.offsets _ hp).1
    exact ⟨x, os, hp, hx⟩
  · rintro ⟨x, os, hp, -⟩
    exact List.mem_map.2 ⟨(v, os), hp, rfl⟩

theorem Sorted.get?_ne_none_iff (h : f.Sorted) : f.get? v ≠ none ↔ v ∈ f.map (·.1) := by
  constructor
  · intro hne
    obtain ⟨os, hos⟩ := Option.ne_none_iff_exists'.1 hne
    exact List.mem_map.2 ⟨_, mem_of_get? hos, rfl⟩
  · intro hv
    obtain ⟨p, hp, rfl⟩ := List.mem_map.1 hv
    have hsome : f.get? p.1 = some p.2 := h.ascending.get? hp
    simp [hsome]

/-- The footprint of references that have the right arity. -/
def around (origin : List Int) (refs : List Ref) : Footprint :=
  insertAll [] (refs.map fun r => (r.name, r.offsetFrom origin))

theorem ofRefs_eq_ok : ofRefs origin refs = .ok f ↔
    (∀ r ∈ refs, r.idx.length = origin.length) ∧ f = around origin refs := by
  unfold ofRefs
  rw [foldlM_eq_ok_iff (P := fun r => r.idx.length = origin.length)
    (g := fun f r => f.insert r.name (r.offsetFrom origin)), around, insertAll, List.foldl_map]
  intro f r f'
  simp only [bind_eq_ok, relative_eq_ok, pure_eq_ok, Except.ok.injEq]
  constructor
  · rintro ⟨_, ⟨hlen, rfl⟩, rfl⟩
    exact ⟨hlen, rfl⟩
  · rintro ⟨hlen, rfl⟩
    exact ⟨_, ⟨hlen, rfl⟩, rfl⟩

theorem has_around :
    Has (around origin refs) v x ↔ ∃ r ∈ refs, r.name = v ∧ r.offsetFrom origin = x := by
  rw [around, has_insertAll]
  simp [Has]

end Footprint

/-- A reference stands in one of the expressions of a statement. -/
def Output.Reads (o : Output Node) (r : Ref) : Prop := ∃ e ∈ o.expressions, .ref r ∈ e.parts

theorem Output.reads_iff {o : Output Node} {r : Ref} :
    o.Reads r ↔ ∃ e ∈ o.expressions, r ∈ e.refs := by
  simp only [Reads, Node.mem_refs_iff]

namespace Node

open Footprint

variable {o : Output Node} {f : Footprint} {v : String} {x : Offset}

theorem outputFootprint_eq_ok : outputFootprint o = .ok f ↔
    (∀ r, o.Reads r → r.idx.length = o.target.idx.length) ∧
      f = o.expressions.foldl (fun f e => Footprint.union f (around o.target.idx e.refs)) [] := by
  have hreads : (∀ r, o.Reads r → r.idx.length = o.target.idx.length) ↔
      ∀ e ∈ o.expressions, ∀ r ∈ e.refs, r.idx.length = o.target.idx.length := by
    simp only [Output.reads_iff]
    exact ⟨fun h e he r hr => h r ⟨e, he, hr⟩, fun h r ⟨e, he, hr⟩ => h e he r hr⟩
  rw [hreads]
  unfold outputFootprint
  refine foldlM_eq_ok_iff fun f e f' => ?_
  simp only [bind_eq_ok, footprint, ofRefs_eq_ok, pure_eq_ok, Except.ok.injEq]
  constructor
  · rintro ⟨_, ⟨hlen, rfl⟩, rfl⟩
    exact ⟨hlen, rfl⟩
  · rintro ⟨hlen, rfl⟩
    exact ⟨_, ⟨hlen, rfl⟩, rfl⟩

theorem sorted_outputFootprint (h : outputFootprint o = .ok f) : f.Sorted := by
  rw [(outputFootprint_eq_ok.1 h).2]
  refine foldl_preserves (fun (f : Footprint) e hf => ?_) sorted_nil
  rw [union_eq]
  exact hf.insertAll _

/-- The offsets of a statement are those of its references. -/
theorem has_outputFootprint (h : outputFootprint o = .ok f) :
    Has f v x ↔ ∃ r, o.Reads r ∧ r.name = v ∧ r.offsetFrom o.target.idx = x := by
  have hgen (es : List Node) (start : Footprint) :
      Has (es.foldl (fun f e => Footprint.union f (around o.target.idx e.refs)) start) v x ↔
        Has start v x ∨ ∃ e ∈ es, ∃ r ∈ e.refs, r.name = v ∧ r.offsetFrom o.target.idx = x := by
    induction es generalizing start with
    | nil => simp
    | cons e es ih => simp [ih, has_union, has_around, or_assoc]
  rw [(outputFootprint_eq_ok.1 h).2, hgen]
  simp only [Output.reads_iff]
  constructor
  · rintro (⟨_, hnil, -⟩ | ⟨e, he, r, hr, hx⟩)
    · cases hnil
    · exact ⟨r, ⟨e, he, hr⟩, hx⟩
  · rintro ⟨r, ⟨e, he, hr⟩, hx⟩
    exact .inr ⟨e, he, r, hr, hx⟩

/-- The names in a footprint are those that the statement reads. -/
theorem mem_names_outputFootprint (h : outputFootprint o = .ok f) :
    v ∈ f.map (·.1) ↔ ∃ r, o.Reads r ∧ r.name = v := by
  rw [(sorted_outputFootprint h).mem_names_iff]
  simp only [has_outputFootprint h]
  constructor
  · rintro ⟨_, r, hr, hv, -⟩
    exact ⟨r, hr, hv⟩
  · rintro ⟨r, hr, hv⟩
    exact ⟨_, r, hr, hv, rfl⟩

end Node

end GridSweep
