import GridSweep.Proofs.Surface.DerivationTree
import GridSweep.Proofs.Token.LongestMatch

/-!
# Parsed programs

Each parser of a statement returns the meaning of a tree whose tokens it consumes (`_sound`), and
returns it for every tree whose tokens stand in front of it (`_complete`). A program has no tokens
behind it, so parsing accepts the texts that lex into the tokens of a derivation
(`parseProgram_ok_iff_derivation`).
-/

namespace GridSweep.Surface

namespace Parser

variable {p p' : Parser} {ts : List Token} {ls : List Lexeme}

/-- What is consumed to the end is all that there is. -/
theorem Consumes.tokens_eq (h : Consumes p ts p') (hp : p.current = none → p.rest = [])
    (hend : p'.current = none) :
    p.current.toList.map some ++ p.rest.map (·.token) = ts.map some := by
  induction h with
  | nil p => simp [hend, hp hend]
  | @cons p q p' t ts ht hq _ ih =>
    unfold next? at hq
    split at hq
    · next hrest =>
      cases hq
      have := ih (fun _ => hrest) hend
      simp_all
    · next u start stop ls hrest =>
      cases hq
      have := ih (by simp) hend
      simp_all
    · cases hq

theorem Consumes.of_ofLexemes (h : Consumes (ofLexemes ls) ts p') (hend : p'.current = none)
    (hpending : (ofLexemes ls).pending = none) : ls.map (·.token) = ts.map some := by
  rw [← h.tokens_eq ?_ hend]
  all_goals
    rcases ls with _ | ⟨⟨_ | t, start, stop⟩, ls⟩ <;> simp_all [ofLexemes]

end Parser

namespace Parse

open Surface.Parser

variable {α : Type} {p p' q : Parser} {ts : List Token} {fuel : Nat}

/-! ## Single tokens -/

theorem returns_expectIdent {name : String} :
    Returns expectIdent p name p' ↔ Consumes p [.ident name] p' := by
  simp only [expectIdent, returns_bind, returns_current, consumes_cons_iff, consumes_nil_iff]
  constructor
  · rintro ⟨_, _, ⟨rfl, rfl⟩, h⟩
    split at h
    · next hname =>
      obtain ⟨_, q, hq, h⟩ := returns_bind.1 h
      obtain ⟨rfl, rfl⟩ := returns_pure.1 h
      exact ⟨hname, p', returns_advance.1 hq, rfl⟩
    · exact absurd h not_returns_fail
  · rintro ⟨ht, q, hq, rfl⟩
    refine ⟨_, _, ⟨rfl, rfl⟩, ?_⟩
    rw [ht]
    exact returns_bind.2 ⟨(), p', returns_advance.2 hq, returns_pure.2 ⟨rfl, rfl⟩⟩

theorem returns_expectCount {field : Keyword} {n : Nat} :
    Returns (expectCount field) p n p' ↔ n < 2 ^ 32 ∧ Consumes p [.int n] p' := by
  simp only [expectCount, returns_bind, returns_expectInt]
  constructor
  · rintro ⟨m, q, hm, h⟩
    split at h
    · next hlt =>
      obtain ⟨rfl, rfl⟩ := returns_pure.1 h
      exact ⟨hlt, hm⟩
    · exact absurd h not_returns_fail
  · rintro ⟨hlt, h⟩
    exact ⟨n, p', h, by
      rw [if_pos (show n < 1 <<< 32 from hlt)]
      exact returns_pure.2 ⟨rfl, rfl⟩⟩

theorem returns_headerField {field : Keyword} {value : Parse α} {a : α} :
    Returns (headerField field value) p a p' ↔
      ∃ q, Consumes p [.keyword field, .colon] q ∧ Returns value q a p' := by
  simp only [headerField, returns_bind, returns_expect]
  constructor
  · rintro ⟨_, q, hq, _, q', hq', h⟩
    exact ⟨q', hq.append hq', h⟩
  · rintro ⟨q', hq, h⟩
    obtain ⟨hkeyword, q, hnext, hcolon⟩ := consumes_cons_iff.1 hq
    exact ⟨(), q, .single hkeyword hnext, (), q', hcolon, h⟩

/-! ## Inputs -/

theorem input_sound {i : Input} (h : Returns (input fuel) p i p') :
    ∃ d : InputTree, d.phrase.meaning = i ∧ Consumes p d.phrase.tokens p' := by
  obtain ⟨_, q, hkeyword, h⟩ := returns_bind.1 h
  obtain ⟨name, q', hname, h⟩ := returns_bind.1 h
  obtain ⟨sizes, q'', hsizes, h⟩ := returns_bind.1 h
  obtain ⟨rfl, rfl⟩ := returns_pure.1 h
  obtain ⟨φs, rfl, hne, hφs, hts⟩ := tuple_sound (R := fun ts n => ts = [.int n])
    (fun _ _ _ h => ⟨_, rfl, returns_expectInt.1 h⟩) hsizes
  obtain ⟨ns, rfl⟩ := exists_map_phrase (f := fun n : Nat => ⟨[.int n], n⟩) fun φ hφ =>
    ⟨φ.meaning, by rw [← hφs φ hφ]⟩
  cases ns with
  | nil => exact absurd rfl hne
  | cons n ns =>
    refine ⟨⟨name, n, ns⟩, by simp [InputTree.phrase, Function.comp_def], ?_⟩
    exact (returns_expect.1 hkeyword).append ((returns_expectIdent.1 hname).append hts)

theorem input_complete (d : InputTree) (hfuel : d.phrase.tokens.length ≤ fuel)
    (h : Consumes p d.phrase.tokens p') : Returns (input fuel) p d.phrase.meaning p' := by
  obtain ⟨hkeyword, q, hq, h⟩ := consumes_cons_iff.1 h
  obtain ⟨hname, q', hq', h⟩ := consumes_cons_iff.1 h
  refine returns_bind.2 ⟨(), q, returns_expect.2 (.single hkeyword hq), ?_⟩
  refine returns_bind.2 ⟨d.name, q', returns_expectIdent.2 (.single hname hq'), ?_⟩
  refine returns_bind.2 ⟨_, p', tuple_complete (by simp) (fun φ hφ r r' hr _ => ?_) ?_ h,
    returns_pure.2 ⟨by simp [InputTree.phrase, Function.comp_def], rfl⟩⟩
  · obtain ⟨n, -, rfl⟩ := List.mem_map.1 hφ
    exact returns_expectInt.2 hr
  · have hlength :=
      (length_listing ((d.first :: d.more).map fun n => (⟨[.int n], n⟩ : Phrase Nat))).1
    simp only [InputTree.phrase, tupleTokens, List.length_cons, List.length_append] at hfuel
    omega

theorem moreInputs_sound {n : Nat} {is : List Input} (h : Returns (moreInputs fuel n) p is p') :
    ∃ ds : List InputTree, ds.map (·.phrase.meaning) = is ∧
      Consumes p (ds.flatMap (·.phrase.tokens)) p' := by
  induction n generalizing p is with
  | zero =>
    obtain ⟨rfl, rfl⟩ := returns_pure.1 h
    exact ⟨[], rfl, .nil _⟩
  | succ n ih =>
    replace h := returns_current_bind.1 h
    split at h
    · obtain ⟨i, q, hi, h⟩ := returns_bind.1 h
      obtain ⟨is', q', his, h⟩ := returns_bind.1 h
      obtain ⟨rfl, rfl⟩ := returns_pure.1 h
      obtain ⟨d, rfl, hd⟩ := input_sound hi
      obtain ⟨ds, rfl, hds⟩ := ih his
      exact ⟨d :: ds, rfl, hd.append hds⟩
    · obtain ⟨rfl, rfl⟩ := returns_pure.1 h
      exact ⟨[], rfl, .nil _⟩

theorem moreInputs_complete {n : Nat} {ds : List InputTree} (hn : ds.length ≤ n)
    (hfuel : ∀ d ∈ ds, d.phrase.tokens.length ≤ fuel)
    (h : Consumes p (ds.flatMap (·.phrase.tokens)) p')
    (hend : p'.current = some (.keyword .output)) :
    Returns (moreInputs fuel n) p (ds.map (·.phrase.meaning)) p' := by
  induction ds generalizing p n with
  | nil =>
    obtain rfl := consumes_nil_iff.1 h
    cases n with
    | zero => exact returns_pure.2 ⟨rfl, rfl⟩
    | succ n =>
      refine returns_current_bind.2 ?_
      rw [if_neg (by simp [hend])]
      exact returns_pure.2 ⟨rfl, rfl⟩
  | cons d ds ih =>
    obtain ⟨n, rfl⟩ : ∃ k, n = k + 1 := ⟨n - 1, by simp at hn; omega⟩
    obtain ⟨hd, hds⟩ := List.forall_mem_cons.1 hfuel
    obtain ⟨q, hq, h⟩ := consumes_append_iff.1 h
    refine returns_current_bind.2 ?_
    rw [if_pos (consumes_cons_iff.1 hq).1]
    refine returns_bind.2 ⟨_, q, input_complete d hd hq, ?_⟩
    exact returns_bind.2 ⟨_, p', ih (by simpa using hn) hds h, returns_pure.2 ⟨rfl, rfl⟩⟩

/-! ## The output statement -/

theorem exprWith_sound {e : Expr} (h : Returns (exprWith fuel) p e p') :
    ∃ d : ExprTree Level.all, d.phrase.meaning = e ∧ Consumes p d.phrase.tokens p' := by
  rw [exprWith_eq] at h
  obtain ⟨ts, hderives, hts⟩ := exprUpTo_sound h
  obtain ⟨d, hd⟩ := hderives.exists_tree
  change ExprTree.phrase d = _ at hd
  exact ⟨d, by rw [hd], by rwa [hd]⟩

theorem exprWith_complete (d : ExprTree Level.all) (hfuel : d.phrase.tokens.length ≤ fuel)
    (hpos : 0 < fuel) (h : Consumes p d.phrase.tokens p') (hend : Ends Level.all p'.current) :
    Returns (exprWith fuel) p d.phrase.meaning p' := by
  obtain ⟨depth, rfl⟩ : ∃ k, fuel = k + 1 := ⟨fuel - 1, by omega⟩
  rw [exprWith_eq]
  exact complete d.derives nodup_all hfuel hfuel h hend

theorem reference_sound {name : String} {r : Ref} (h : Returns (reference fuel name) p r p') :
    ∃ d : RefTree, d.name = name ∧ d.phrase.meaning = r ∧
      Consumes p (tupleTokens d.indices) p' := by
  obtain ⟨idx, q, hidx, h⟩ := returns_bind.1 h
  obtain ⟨rfl, rfl⟩ := returns_pure.1 h
  obtain ⟨φs, rfl, hne, hφs, hts⟩ := tuple_sound (fun _ _ _ => returns_expectIndex.1) hidx
  obtain ⟨d, rfl, rfl⟩ := exists_refTree name hne hφs
  exact ⟨d, rfl, rfl, hts⟩

theorem reference_complete (d : RefTree) (hfuel : d.phrase.tokens.length ≤ fuel)
    (h : Consumes p (tupleTokens d.indices) p') :
    Returns (reference fuel d.name) p d.phrase.meaning p' := by
  refine returns_bind.2 ⟨_, p', tuple_complete ?_ (fun φ hφ r r' hr _ => ?_) ?_ h,
    returns_pure.2 ⟨rfl, rfl⟩⟩
  · simp [RefTree.indices]
  · obtain ⟨i, -, rfl⟩ := List.mem_map.1 hφ
    exact returns_expectIndex.2 ⟨_, i.isIndex, hr⟩
  · have hlength := (length_listing d.indices).1
    simp only [RefTree.phrase, tupleTokens, List.length_cons, List.length_append] at hfuel
    omega

theorem eq_of_returns_atBinding {b : Bool} (h : Returns atBinding p b p') : p' = p := by
  obtain ⟨_, _, hget, hlook⟩ := returns_bind.1 h
  obtain ⟨rfl, rfl⟩ := returns_get.1 hget
  split at hlook <;> exact (returns_pure.1 hlook).2

/-- A binding is told by the token behind its name. -/
theorem returns_atBinding {name : String} (hname : p.current = some (.ident name))
    (hq : p.next? = some q) : Returns atBinding p (q.current == some .equals) p := by
  obtain ⟨current, rest, pending⟩ := p
  obtain rfl : current = some (.ident name) := hname
  rcases rest with _ | ⟨⟨_ | t, start, stop⟩, ls⟩ <;> cases hq <;> rfl

theorem bindings_sound {n : Nat} {bs : List (Binding Expr)}
    (h : Returns (bindings fuel n) p bs p') :
    ∃ ds : List LetTree, ds.map (·.phrase.meaning) = bs ∧
      Consumes p (ds.flatMap (·.phrase.tokens)) p' := by
  induction n generalizing p bs with
  | zero =>
    obtain ⟨rfl, rfl⟩ := returns_pure.1 h
    exact ⟨[], rfl, .nil _⟩
  | succ n ih =>
    obtain ⟨b, q, hb, hbody⟩ := returns_bind.1 h
    obtain rfl := eq_of_returns_atBinding hb
    split at hbody
    · obtain ⟨name, q, hname, hbody⟩ := returns_bind.1 hbody
      obtain ⟨_, q', hequals, hbody⟩ := returns_bind.1 hbody
      obtain ⟨e, q'', he, hbody⟩ := returns_bind.1 hbody
      obtain ⟨bs', _, hbs, hbody⟩ := returns_bind.1 hbody
      obtain ⟨rfl, rfl⟩ := returns_pure.1 hbody
      obtain ⟨d, rfl, hd⟩ := exprWith_sound he
      obtain ⟨ds, rfl, hds⟩ := ih hbs
      refine ⟨⟨name, d⟩ :: ds, rfl, ?_⟩
      exact ((returns_expectIdent.1 hname).append ((returns_expect.1 hequals).append hd)).append hds
    · obtain ⟨rfl, rfl⟩ := returns_pure.1 hbody
      exact ⟨[], rfl, .nil _⟩

/-- Bindings end at a name with a parenthesis behind it. -/
theorem bindings_complete {n : Nat} {ds : List LetTree} {name : String} (hn : ds.length ≤ n)
    (hfuel : ∀ d ∈ ds, d.phrase.tokens.length ≤ fuel)
    (h : Consumes p (ds.flatMap (·.phrase.tokens)) p')
    (hend : Consumes p' [.ident name, .lparen] q) :
    Returns (bindings fuel n) p (ds.map (·.phrase.meaning)) p' := by
  induction ds generalizing p n with
  | nil =>
    obtain rfl := consumes_nil_iff.1 h
    cases n with
    | zero => exact returns_pure.2 ⟨rfl, rfl⟩
    | succ n =>
      obtain ⟨hname, r, hr, hrest⟩ := consumes_cons_iff.1 hend
      have hat := returns_atBinding hname hr
      rw [(consumes_cons_iff.1 hrest).1] at hat
      exact returns_bind.2 ⟨false, _, hat, returns_pure.2 ⟨rfl, rfl⟩⟩
  | cons d ds ih =>
    obtain ⟨n, rfl⟩ : ∃ k, n = k + 1 := ⟨n - 1, by simp at hn; omega⟩
    obtain ⟨hd, hds⟩ := List.forall_mem_cons.1 hfuel
    obtain ⟨q, hq, h⟩ := consumes_append_iff.1 h
    obtain ⟨hname, r, hr, hq⟩ := consumes_cons_iff.1 hq
    obtain ⟨hequals, r', hr', hq⟩ := consumes_cons_iff.1 hq
    have hnext : Ends Level.all q.current := by
      cases ds with
      | nil =>
        obtain rfl := consumes_nil_iff.1 h
        rw [(consumes_cons_iff.1 hend).1]
        exact ends_ident name
      | cons d' ds =>
        rw [(consumes_cons_iff.1 h).1]
        exact ends_ident d'.name
    simp only [LetTree.phrase, List.length_cons] at hd
    have hat := returns_atBinding hname hr
    rw [hequals] at hat
    refine returns_bind.2 ⟨true, p, hat, ?_⟩
    refine returns_bind.2 ⟨d.name, r, returns_expectIdent.2 (.single hname hr), ?_⟩
    refine returns_bind.2 ⟨(), r', returns_expect.2 (.single hequals hr'), ?_⟩
    refine returns_bind.2 ⟨_, q, exprWith_complete d.value (by omega) (by omega) hq hnext, ?_⟩
    exact returns_bind.2 ⟨_, p', ih (by simpa using hn) hds h, returns_pure.2 ⟨rfl, rfl⟩⟩

theorem output_sound {o : Output Expr} (h : Returns (output fuel) p o p') :
    ∃ d : OutputTree, d.phrase.meaning = o ∧ Consumes p d.phrase.tokens p' := by
  obtain ⟨_, q₁, hkeyword, h⟩ := returns_bind.1 h
  obtain ⟨bs, q₂, hbs, h⟩ := returns_bind.1 h
  obtain ⟨name, q₃, hname, h⟩ := returns_bind.1 h
  obtain ⟨r, q₄, hr, h⟩ := returns_bind.1 h
  obtain ⟨_, q₅, hequals, h⟩ := returns_bind.1 h
  obtain ⟨e, q₆, he, h⟩ := returns_bind.1 h
  obtain ⟨rfl, rfl⟩ := returns_pure.1 h
  obtain ⟨lets, rfl, hlets⟩ := bindings_sound hbs
  obtain ⟨target, rfl, rfl, htarget⟩ := reference_sound hr
  obtain ⟨value, rfl, hvalue⟩ := exprWith_sound he
  refine ⟨⟨lets, target, value⟩, rfl, ?_⟩
  have href := (returns_expectIdent.1 hname).append htarget
  exact (returns_expect.1 hkeyword).append
    (hlets.append (href.append ((returns_expect.1 hequals).append hvalue)))

theorem output_complete (d : OutputTree) (hfuel : d.phrase.tokens.length ≤ fuel)
    (h : Consumes p d.phrase.tokens p') (hend : p'.current = none) :
    Returns (output fuel) p d.phrase.meaning p' := by
  simp only [OutputTree.phrase, List.length_cons, List.length_append] at hfuel
  obtain ⟨hkeyword, q₁, hq₁, h⟩ := consumes_cons_iff.1 h
  obtain ⟨q₂, hlets, h⟩ := consumes_append_iff.1 h
  obtain ⟨q₄, htarget, h⟩ := consumes_append_iff.1 h
  obtain ⟨hname, q₃, hq₃, hindices⟩ := consumes_cons_iff.1 htarget
  obtain ⟨hequals, q₅, hq₅, hvalue⟩ := consumes_cons_iff.1 h
  obtain ⟨hopen, q, hq, -⟩ := consumes_cons_iff.1 hindices
  have hcount : d.lets.length ≤ (d.lets.flatMap (·.phrase.tokens)).length :=
    (length_flatMap_cons d.lets).1
  have hlength : ∀ b ∈ d.lets, b.phrase.tokens.length ≤ (d.lets.flatMap (·.phrase.tokens)).length :=
    (length_flatMap_cons d.lets).2
  have hbindings : Returns (bindings fuel fuel) q₁ (d.lets.map (·.phrase.meaning)) q₂ :=
    bindings_complete (by omega) (fun b hb => Nat.le_trans (hlength b hb) (by omega)) hlets
      (.cons hname hq₃ (.single hopen hq))
  refine returns_bind.2 ⟨(), q₁, returns_expect.2 (.single hkeyword hq₁), ?_⟩
  refine returns_bind.2 ⟨_, q₂, hbindings, ?_⟩
  refine returns_bind.2 ⟨d.target.name, q₃, returns_expectIdent.2 (.single hname hq₃), ?_⟩
  refine returns_bind.2 ⟨_, q₄, reference_complete d.target (by omega) hindices, ?_⟩
  refine returns_bind.2 ⟨(), q₅, returns_expect.2 (.single hequals hq₅), ?_⟩
  refine returns_bind.2 ⟨_, p', exprWith_complete d.value (by omega) (by omega) hvalue ?_,
    returns_pure.2 ⟨rfl, rfl⟩⟩
  rw [hend]
  exact ends_none

/-! ## Programs -/

theorem program_sound {a : Program} (h : Returns program p a p') :
    p.pending = none ∧ p'.current = none ∧
      ∃ d : ProgramTree, d.phrase.meaning = a ∧ Consumes p d.phrase.tokens p' := by
  obtain ⟨_, _, hget, hbody⟩ := returns_bind.1 h
  obtain ⟨rfl, rfl⟩ := returns_get.1 hget
  split at hbody
  · obtain ⟨_, _, _, hthrow⟩ := returns_bind.1 hbody
    cases hthrow
  next hpending =>
  obtain ⟨iterate, q₁, hiterate, hbody⟩ := returns_bind.1 hbody
  obtain ⟨name, q₂, hname, hbody⟩ := returns_bind.1 hbody
  obtain ⟨partitions, q₃, hpartitions, hbody⟩ := returns_bind.1 hbody
  obtain ⟨i, q₄, hi, hbody⟩ := returns_bind.1 hbody
  obtain ⟨is, q₅, his, hbody⟩ := returns_bind.1 hbody
  obtain ⟨o, q₆, ho, hbody⟩ := returns_bind.1 hbody
  replace hbody := returns_current_bind.1 hbody
  split at hbody
  · exact absurd hbody not_returns_fail
  next hend =>
  obtain ⟨rfl, rfl⟩ := returns_pure.1 hbody
  obtain ⟨r₁, hr₁, hiterate⟩ := returns_headerField.1 hiterate
  obtain ⟨r₂, hr₂, hname⟩ := returns_headerField.1 hname
  obtain ⟨r₃, hr₃, hpartitions⟩ := returns_headerField.1 hpartitions
  obtain ⟨iterate_lt, hiterate⟩ := returns_expectCount.1 hiterate
  obtain ⟨partitions_lt, hpartitions⟩ := returns_expectCount.1 hpartitions
  obtain ⟨input, rfl, hinput⟩ := input_sound hi
  obtain ⟨inputs, rfl, hinputs⟩ := moreInputs_sound his
  obtain ⟨output, rfl, houtput⟩ := output_sound ho
  refine ⟨Option.eq_none_iff_forall_ne_some.2 hpending, hend,
    ⟨iterate, iterate_lt, name, partitions, partitions_lt, input, inputs, output⟩, ?_, ?_⟩
  · simp [ProgramTree.phrase, Function.comp_def]
  · have hheader := (hr₁.append hiterate).append ((hr₂.append (returns_expectIdent.1 hname)).append
      (hr₃.append hpartitions))
    have hstatements := (hinput.append hinputs).append houtput
    simpa [ProgramTree.phrase, List.flatMap_map] using hheader.append hstatements

theorem program_complete (d : ProgramTree) (hpending : p.pending = none)
    (h : Consumes p d.phrase.tokens p') (hend : p'.current = none) :
    Returns program p d.phrase.meaning p' := by
  have hfuel : d.phrase.tokens.length ≤ p.fuel := Nat.le_trans h.length_le (Nat.le_succ _)
  have hcount : d.inputs.length ≤ (d.inputs.flatMap (·.phrase.tokens)).length :=
    (length_flatMap_cons d.inputs).1
  have hlength : ∀ i ∈ d.inputs,
      i.phrase.tokens.length ≤ (d.inputs.flatMap (·.phrase.tokens)).length :=
    (length_flatMap_cons d.inputs).2
  simp only [ProgramTree.phrase, List.map_cons, List.flatMap_cons, List.flatMap_map,
    List.length_append] at h hfuel
  obtain ⟨q, hheader, h⟩ := consumes_append_iff.1 h
  obtain ⟨q₅, hinputs, houtput⟩ := consumes_append_iff.1 h
  obtain ⟨q₄, hinput, hinputs⟩ := consumes_append_iff.1 hinputs
  have hfields : Consumes p ([.keyword .iterate, .colon] ++ ([.int d.iterate] ++
      ([.keyword .kernel, .colon] ++ ([.ident d.kernelName] ++
      ([.keyword .count, .colon] ++ [.int d.partitions]))))) q := hheader
  simp only [consumes_append_iff] at hfields
  obtain ⟨r₁, hr₁, q₁, hq₁, r₂, hr₂, q₂, hq₂, r₃, hr₃, hq₃⟩ := hfields
  refine returns_bind.2 ⟨p, p, returns_get.2 ⟨rfl, rfl⟩, ?_⟩
  rw [hpending]
  refine returns_bind.2 ⟨d.iterate, q₁, returns_headerField.2
    ⟨r₁, hr₁, returns_expectCount.2 ⟨d.iterate_lt, hq₁⟩⟩, ?_⟩
  refine returns_bind.2 ⟨d.kernelName, q₂, returns_headerField.2
    ⟨r₂, hr₂, returns_expectIdent.2 hq₂⟩, ?_⟩
  refine returns_bind.2 ⟨d.partitions, q, returns_headerField.2
    ⟨r₃, hr₃, returns_expectCount.2 ⟨d.partitions_lt, hq₃⟩⟩, ?_⟩
  refine returns_bind.2 ⟨_, q₄, input_complete d.input (by omega) hinput, ?_⟩
  refine returns_bind.2 ⟨_, q₅, moreInputs_complete (by omega)
    (fun i hi => Nat.le_trans (hlength i hi) (by omega)) hinputs
    (consumes_cons_iff.1 houtput).1, ?_⟩
  refine returns_bind.2 ⟨_, p', output_complete d.output (by omega) houtput hend, ?_⟩
  refine returns_current_bind.2 ?_
  rw [hend]
  exact returns_pure.2 ⟨by simp [ProgramTree.phrase, Function.comp_def], rfl⟩

end Parse

open Parse Lexer

variable {source : String}

theorem parseProgram_eq_ok {a : Program} :
    parseProgram source = .ok a ↔ ∃ p', Returns program (.ofSource source) a p' := by
  change (outcome program (.ofSource source)).1 = _ ↔ ∃ p', outcome program (.ofSource source) = _
  rcases outcome program (.ofSource source) with ⟨_, q⟩
  simp

theorem pending_ofSource {ts : List Token} (h : Lexes source.toList ts) :
    (Parser.ofSource source).pending = none := by
  have htokens := tokens_eq_iff_lexes.2 h
  rw [← map_token_lex] at htokens
  unfold Parser.ofSource
  rcases hsource : lex source with _ | ⟨⟨_ | t, start, stop⟩, ls⟩
  · rfl
  · rw [hsource] at htokens
    cases ts <;> simp at htokens
  · rfl

/-- A program is parsed exactly if its text lexes and its tokens have a derivation, and then it is
the program of that derivation, which is the only one. -/
theorem parseProgram_ok_iff_derivation (source : String) (a : Program) :
    parseProgram source = .ok a ↔
      ∃ d : ProgramTree, (Lexes source.toList d.phrase.tokens ∧ d.phrase.meaning = a) ∧
        ∀ d' : ProgramTree, Lexes source.toList d'.phrase.tokens → d' = d := by
  rw [parseProgram_eq_ok]
  constructor
  · rintro ⟨p', h⟩
    obtain ⟨hpending, hend, d, hd, hts⟩ := program_sound h
    have htokens : tokens source.toList = d.phrase.tokens.map some := hts.of_ofLexemes hend hpending
    refine ⟨d, ⟨tokens_eq_iff_lexes.1 htokens, hd⟩, fun d' hd' => ProgramTree.phrase_inj ?_⟩
    have hsame := (tokens_eq_iff_lexes.2 hd').symm.trans htokens
    exact (List.map_inj_right fun _ _ => Option.some.inj).1 hsame
  · rintro ⟨d, ⟨hlexes, rfl⟩, -⟩
    have hts := Parser.consumes_ofSource (tokens_eq_iff_lexes.2 hlexes)
    exact ⟨_, program_complete d (pending_ofSource hlexes) hts rfl⟩

end GridSweep.Surface
