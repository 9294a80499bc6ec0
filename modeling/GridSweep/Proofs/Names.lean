import GridSweep.LineBuffer.Basic

/-!
# Generated names

Names of storage elements and of taps are made of a variable, fixed words and coordinates, joined
by underscores. A coordinate has no underscore, so a name is read back from its end: two generated
names are equal only if they stand for the same thing, also when variables have underscores and
digits of their own.
-/

namespace GridSweep

/-! ## Reading a name from its end -/

/-- The text behind the last underscore is determined, and so is what stands in front of it. -/
theorem append_underscore_inj {a b x y : String} (hx : '_' ∉ x.toList) (hy : '_' ∉ y.toList)
    (h : a ++ "_" ++ x = b ++ "_" ++ y) : a = b ∧ x = y := by
  have hl : a.toList ++ '_' :: x.toList = b.toList ++ '_' :: y.toList := by
    simpa [String.toList_append] using congrArg String.toList h
  rcases List.append_eq_append_iff.1 hl with ⟨c, hb, hc⟩ | ⟨c, ha, hc⟩
  · cases c with
    | nil =>
      simp only [List.append_nil, List.nil_append, List.cons.injEq, true_and] at hb hc
      exact ⟨String.toList_injective hb.symm, String.toList_injective hc⟩
    | cons d c =>
      simp only [List.cons_append, List.cons.injEq] at hc
      exact (hx (by simp [hc.2])).elim
  · cases c with
    | nil =>
      simp only [List.append_nil, List.nil_append, List.cons.injEq, true_and] at ha hc
      exact ⟨String.toList_injective ha, String.toList_injective hc.symm⟩
    | cons d c =>
      simp only [List.cons_append, List.cons.injEq] at hc
      exact (hy (by simp [hc.2])).elim

theorem toList_toString (n : Nat) : (toString n).toList = Nat.toDigits 10 n := by
  rw [Nat.toString_eq_repr, Nat.toList_repr]

theorem toString_inj {m n : Nat} (h : toString m = toString n) : m = n := by
  have := congrArg (fun s : String => Nat.ofDigitChars 10 s.toList 0) h
  simpa [toList_toString] using this

theorem underscore_notMem_toString (n : Nat) : '_' ∉ (toString n).toList := by
  rw [toList_toString]
  exact Nat.underscore_not_in_toDigits

theorem notMem_toString {c : Char} (hc : c.isDigit = false) (n : Nat) :
    c ∉ (toString n).toList := by
  rw [toList_toString]
  intro h
  have := Nat.isDigit_of_mem_toDigits (by omega) (by omega) h
  rw [hc] at this
  cases this

theorem m_notMem_toString (n : Nat) : 'm' ∉ (toString n).toList := notMem_toString rfl n

namespace Offset

theorem coordinateName_inj {c d : Int} (h : coordinateName c = coordinateName d) : c = d := by
  unfold coordinateName at h
  -- a leading `m` tells the negative coordinates from the others
  split at h <;> split at h
  · have := toString_inj ((String.append_right_inj _).1 h)
    omega
  · exact (m_notMem_toString _ (by rw [← h]; simp)).elim
  · exact (m_notMem_toString _ (by rw [h]; simp)).elim
  · have := toString_inj h
    omega

theorem underscore_notMem_coordinateName (c : Int) : '_' ∉ (coordinateName c).toList := by
  unfold coordinateName
  split
  · simp
  · exact underscore_notMem_toString c.natAbs

theorem l_notMem_coordinateName (c : Int) : 'l' ∉ (coordinateName c).toList := by
  unfold coordinateName
  split
  · rw [String.toList_append, List.mem_append, not_or]
    exact ⟨by decide, notMem_toString rfl _⟩
  · exact notMem_toString rfl _

theorem tapName_pair (var : String) (row col : Int) :
    tapName var [row, col] = var ++ "_" ++ coordinateName row ++ "_" ++ coordinateName col := by
  have h : "_".intercalate [coordinateName row, coordinateName col] =
      coordinateName row ++ "_" ++ coordinateName col := rfl
  simp [tapName, h, String.append_assoc]

theorem tapName_inj {v v' : String} {r c r' c' : Int}
    (h : tapName v [r, c] = tapName v' [r', c']) : v = v' ∧ r = r' ∧ c = c' := by
  rw [tapName_pair, tapName_pair] at h
  obtain ⟨h, hc⟩ := append_underscore_inj (underscore_notMem_coordinateName _)
    (underscore_notMem_coordinateName _) h
  obtain ⟨hv, hr⟩ := append_underscore_inj (underscore_notMem_coordinateName _)
    (underscore_notMem_coordinateName _) h
  exact ⟨hv, coordinateName_inj hr, coordinateName_inj hc⟩

end Offset

/-! ## Elements of line buffers -/

/-- A place in a line buffer that has a name of its own. -/
inductive Part where
  | line (row : Int)
  | block (row : Int) (index : Nat)
  | popped (row : Int) (index : Nat)
deriving DecidableEq, Repr

def Part.row : Part → Int
  | line row | block row _ | popped row _ => row

namespace LineBuffer

/-- The name of a part. -/
def partName (b : LineBuffer) : Part → String
  | .line row => b.line row
  | .block row index => b.blockName row index
  | .popped row index => b.poppedName row index

theorem line_inj {b b' : LineBuffer} {r r' : Int} (h : b.line r = b'.line r') :
    b.var = b'.var ∧ r = r' := by
  have h' : b.var ++ "_line" ++ "_" ++ Offset.coordinateName r =
      b'.var ++ "_line" ++ "_" ++ Offset.coordinateName r' := by
    simpa [line, String.append_assoc] using h
  obtain ⟨hv, hr⟩ := append_underscore_inj (Offset.underscore_notMem_coordinateName _)
    (Offset.underscore_notMem_coordinateName _) h'
  exact ⟨(String.append_left_inj _).1 hv, Offset.coordinateName_inj hr⟩

/-- The last word of a name with an index, and what stands in front of it. -/
theorem indexed_inj {b b' : LineBuffer} {r r' : Int} {x y : String} (hx : '_' ∉ x.toList)
    (hy : '_' ∉ y.toList)
    (h : b.line r ++ "_block" ++ "_" ++ x = b'.line r' ++ "_block" ++ "_" ++ y) :
    b.var = b'.var ∧ r = r' ∧ x = y := by
  obtain ⟨hl, hxy⟩ := append_underscore_inj hx hy h
  obtain ⟨hv, hr⟩ := line_inj ((String.append_left_inj _).1 hl)
  exact ⟨hv, hr, hxy⟩

/-- A queue's name does not end like a register's: in front of its last word stands `line`. -/
theorem line_ne_indexed {b b' : LineBuffer} {r r' : Int} {x : String} (hx : '_' ∉ x.toList) :
    b.line r ≠ b'.line r' ++ "_block" ++ "_" ++ x := by
  intro h
  have h' : b.var ++ "_line" ++ "_" ++ Offset.coordinateName r =
      b'.line r' ++ "_block" ++ "_" ++ x := by
    simpa [line, String.append_assoc] using h
  have hp := (append_underscore_inj (Offset.underscore_notMem_coordinateName _) hx h').1
  have hw : b.var ++ "_" ++ "line" = b'.line r' ++ "_" ++ "block" := by
    simpa [String.append_assoc] using hp
  exact absurd (append_underscore_inj (by decide) (by decide) hw).2 (by decide)

theorem blockName_eq (b : LineBuffer) (r : Int) (i : Nat) :
    b.blockName r i = b.line r ++ "_block" ++ "_" ++ toString i := by
  simp [blockName, String.append_assoc]

theorem poppedName_eq (b : LineBuffer) (r : Int) (i : Nat) :
    b.poppedName r i = b.line r ++ "_block" ++ "_" ++ ("m" ++ toString (i + 1)) := by
  rw [poppedName, show "_block_m" = "_block" ++ "_" ++ "m" by decide]
  simp only [String.append_assoc]

theorem underscore_notMem_popped (i : Nat) : '_' ∉ ("m" ++ toString (i + 1)).toList := by
  simp

/-- Names of parts are different, within a buffer and between buffers of different variables. -/
theorem partName_inj {b b' : LineBuffer} {p q : Part} (h : b.partName p = b'.partName q) :
    b.var = b'.var ∧ p = q := by
  cases p <;> cases q <;> simp only [partName, blockName_eq, poppedName_eq] at h
  case line.line r r' =>
    obtain ⟨hv, rfl⟩ := line_inj h
    exact ⟨hv, rfl⟩
  case block.block r i r' j =>
    obtain ⟨hv, rfl, hij⟩ :=
      indexed_inj (underscore_notMem_toString _) (underscore_notMem_toString _) h
    exact ⟨hv, by rw [toString_inj hij]⟩
  case popped.popped r i r' j =>
    obtain ⟨hv, rfl, hij⟩ :=
      indexed_inj (underscore_notMem_popped _) (underscore_notMem_popped _) h
    have := toString_inj ((String.append_right_inj _).1 hij)
    exact ⟨hv, by rw [show i = j by omega]⟩
  case block.popped r i r' j =>
    have hij := (indexed_inj (underscore_notMem_toString _) (underscore_notMem_popped _) h).2.2
    exact (m_notMem_toString i (by rw [hij]; simp)).elim
  case popped.block r i r' j =>
    have hij := (indexed_inj (underscore_notMem_popped _) (underscore_notMem_toString _) h).2.2
    exact (m_notMem_toString j (by rw [← hij]; simp)).elim
  case line.block => exact (line_ne_indexed (underscore_notMem_toString _) h).elim
  case line.popped => exact (line_ne_indexed (underscore_notMem_popped _) h).elim
  case block.line => exact (line_ne_indexed (underscore_notMem_toString _) h.symm).elim
  case popped.line => exact (line_ne_indexed (underscore_notMem_popped _) h.symm).elim

/-- In front of the last word of a part's name stands `line` or `block`. -/
theorem partName_eq (b : LineBuffer) (p : Part) : ∃ front word last : String,
    (word = "line" ∨ word = "block") ∧ '_' ∉ last.toList ∧
      b.partName p = front ++ "_" ++ word ++ "_" ++ last := by
  cases p with
  | line row =>
    exact ⟨b.var, "line", _, .inl rfl, Offset.underscore_notMem_coordinateName row,
      by simp [partName, line, String.append_assoc]⟩
  | block row index =>
    exact ⟨b.line row, "block", _, .inr rfl, underscore_notMem_toString index,
      by simp [partName, blockName_eq, String.append_assoc]⟩
  | popped row index =>
    exact ⟨b.line row, "block", _, .inr rfl, underscore_notMem_popped index,
      by simp [partName, poppedName_eq, String.append_assoc]⟩

/-- A tap has a coordinate in that place. -/
theorem partName_ne_tapName (b : LineBuffer) (p : Part) (v : String) (r c : Int) :
    b.partName p ≠ Offset.tapName v [r, c] := by
  intro h
  obtain ⟨front, word, last, hword, hlast, hname⟩ := b.partName_eq p
  rw [hname, Offset.tapName_pair] at h
  have hfront := (append_underscore_inj hlast (Offset.underscore_notMem_coordinateName c) h).1
  have hsolid : '_' ∉ word.toList := by rcases hword with rfl | rfl <;> decide
  have hcoordinate :=
    (append_underscore_inj hsolid (Offset.underscore_notMem_coordinateName r) hfront).2
  apply Offset.l_notMem_coordinateName r
  rw [← hcoordinate]
  rcases hword with rfl | rfl <;> decide

theorem partName_injective (b : LineBuffer) : Function.Injective b.partName :=
  fun _ _ h => (partName_inj h).2

end LineBuffer

end GridSweep
