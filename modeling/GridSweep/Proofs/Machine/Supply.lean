import GridSweep.Proofs.Outcome

/-!
# Words from a feed

A feed gives word `k` at position `k`: a buffer because it is read at that address, a channel
because everything in front of it has been taken. `Serves` is that fact for either kind of source,
and lets a line buffer be followed without telling the two apart.
-/

namespace GridSweep

namespace Supply

variable {w : Nat} {p p' p'' : Supply w} {source : Endpoint} {word : Nat → BitVec w}
  {avail k n : Nat} {short : Prop}

/-- The next position of the source is `k`, and its words are those of `word`; a channel has words
up to position `avail`. -/
def Serves (p : Supply w) (source : Endpoint) (word : Nat → BitVec w) (avail k : Nat) : Prop :=
  match source with
  | .memory buffer => p.memory buffer = word
  | .stream name => p.channels name = (List.range' k (avail - k)).map word

/-- `p'` differs from `p` at most in the words left on the channels among `sources`. -/
structure Within (sources : List Endpoint) (p p' : Supply w) : Prop where
  memory_eq : p'.memory = p.memory
  channels_eq : ∀ name, .stream name ∉ sources → p'.channels name = p.channels name

namespace Within

variable {sources sources' : List Endpoint}

theorem refl (sources : List Endpoint) (p : Supply w) : Within sources p p :=
  ⟨rfl, fun _ _ => rfl⟩

theorem trans (h : Within sources p p') (h' : Within sources p' p'') : Within sources p p'' :=
  ⟨h'.memory_eq.trans h.memory_eq,
    fun name hn => (h'.channels_eq name hn).trans (h.channels_eq name hn)⟩

theorem mono (h : Within sources p p') (hsub : sources ⊆ sources') : Within sources' p p' :=
  ⟨h.memory_eq, fun name hn => h.channels_eq name fun hm => hn (hsub hm)⟩

/-- Other sources serve as before. -/
theorem serves (h : Within sources p p') (hne : source ∉ sources)
    (hs : p.Serves source word avail k) : p'.Serves source word avail k := by
  cases source with
  | memory buffer => exact (congrFun h.memory_eq buffer).trans hs
  | stream name => exact (h.channels_eq name hne).trans hs

end Within

/-- Words enough up to position `n`, unless a run may be short of them. -/
def Enough (short : Prop) (source : Endpoint) (avail n : Nat) : Prop :=
  short ∨ (source.isStream → n ≤ avail)

theorem Enough.mono {n' : Nat} (h : Enough short source avail n) (hn : n' ≤ n) :
    Enough short source avail n' := by
  rcases h with h | h
  · exact .inl h
  · exact .inr fun hs => by have := h hs; omega

theorem receive_serves (h : p.Serves source word avail k)
    (hn : Enough short source avail (k + 1)) :
    Outcome short (fun r => r.1 = word k ∧ r.2.Serves source word avail (k + 1) ∧
      Within [source] p r.2) (p.receive source k) := by
  cases source with
  | memory buffer => exact ⟨congrFun h k, h, Within.refl ..⟩
  | stream name =>
    have hc : p.channels name = (List.range' k (avail - k)).map word := h
    by_cases hk : k < avail
    · rw [show avail - k = (avail - (k + 1)) + 1 by omega, List.range'_succ, List.map_cons] at hc
      simp only [receive, hc, Outcome.ok_iff, true_and]
      refine ⟨by simp [Serves], rfl, fun name' hne => ?_⟩
      exact Function.update_of_ne (fun h => hne (by simp [h])) ..
    · rw [show avail - k = 0 by omega] at hc
      simp only [List.range'_zero, List.map_nil] at hc
      simp only [receive, hc, Outcome]
      rcases hn with hs | hle
      · exact hs
      · exact absurd (hle rfl) (by omega)

/-- A channel is brought from one position to a later one; a buffer has no position. -/
theorem discard_serves (h : p.Serves source word avail k)
    (hn : Enough short source avail (k + n)) :
    Outcome short (fun p' => p'.Serves source word avail (k + n) ∧ Within [source] p p')
      (p.discard source n) := by
  unfold discard
  refine Outcome.foldlM_range
    (fun i p' => p'.Serves source word avail (k + i) ∧ Within [source] p p')
    ⟨h, Within.refl ..⟩ fun i hi p₁ hp₁ => ?_
  obtain ⟨h₁, hw₁⟩ := hp₁
  have hr := receive_serves h₁ (hn.mono (show k + i + 1 ≤ k + n by omega))
  -- the address does not matter to what is left of the source
  rw [show p₁.receive source i >>= (fun r => pure r.2) =
    p₁.receive source (k + i) >>= (fun r => pure r.2) by cases source <;> rfl]
  exact hr.bind fun r hr => ⟨hr.2.1, hw₁.trans hr.2.2⟩

/-- A channel from which all words have been taken is empty. -/
theorem Serves.eq_nil {name : String} (h : p.Serves (.stream name) word avail avail) :
    p.channels name = [] := by
  have hc : p.channels name = (List.range' avail (avail - avail)).map word := h
  simpa using hc

end Supply

end GridSweep
