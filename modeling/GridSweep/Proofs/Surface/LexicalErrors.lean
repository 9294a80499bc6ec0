import GridSweep.Proofs.Surface.Programs

/-!
# Sources with an error

A piece of a source that is no token fails the step that runs into it. In front of it the source
reads like any other one that starts with the same tokens, so a parser takes the same steps on both
until it comes to the error: `Follows` says this of a parser, and each parser has it from the
parsers it is made of.

A parser that reads all of an accepted source therefore reports the error of every source that
starts like it (`Follows.reports`). Only where there is no token in front of the error do the two
entry points differ: the error is then noted when the parser is made, and `program` looks at the
note while `expr` takes the missing token for the end of the input.
-/

namespace GridSweep.Surface

namespace Parser

variable {o : Nat} {ts : List Token} {p q : Parser}

/-- Two states at the same token, with the tokens `ts` behind it. In the second one an error at
byte `o` comes next, in the first one anything. -/
structure Cut (o : Nat) (ts : List Token) (p q : Parser) : Prop where
  current : ∃ t, p.current = some t ∧ q.current = some t
  whole : ts.map some <+: p.rest.map (·.token)
  broken : ∃ ls stop more, ls.map (·.token) = ts.map some ∧ q.rest = ls ++ ⟨none, o, stop⟩ :: more

theorem Cut.length_le (h : Cut o ts p q) :
    ts.length ≤ p.rest.length ∧ ts.length ≤ q.rest.length := by
  obtain ⟨ls, stop, more, hls, hrest⟩ := h.broken
  have hwhole := h.whole.length_le
  have hbroken := congrArg List.length hls
  simp only [List.length_map] at hwhole hbroken
  rw [hrest, List.length_append]
  omega

end Parser

namespace Parse

open Surface.Parser

variable {α β : Type} {o k fuel fuel' : Nat} {ts : List Token} {p q : Parser} {f f' : Parse α}

/-! ## Two runs side by side -/

/-- With less than `k` tokens in front of the error, `f'` comes to the error and reports it, or it
gives what `f` gives without the error and leaves the states where they agree. -/
def Follows (o k : Nat) (f f' : Parse α) : Prop :=
  ∀ ts p q, Cut o ts p q → ts.length < k →
    (outcome f' q).1 = .error (.lexical o) ∨ (outcome f' q).1 = (outcome f p).1 ∧
      ∃ us, us.length ≤ ts.length ∧ Cut o us (outcome f p).2 (outcome f' q).2

theorem Follows.mono {j : Nat} (h : Follows o k f f') (hj : j ≤ k) : Follows o j f f' :=
  fun ts p q hcut hlt => h ts p q hcut (Nat.lt_of_lt_of_le hlt hj)

theorem follows_pure (a : α) : Follows o k (pure a) (pure a) :=
  fun ts _ _ hcut _ => .inr ⟨rfl, ts, Nat.le_refl _, hcut⟩

theorem follows_fail (fault : ParseFault) : Follows o k (fail fault : Parse α) (fail fault) :=
  fun ts _ _ hcut _ => .inr ⟨rfl, ts, Nat.le_refl _, hcut⟩

/-- The second parser starts where the first one stops, with no more tokens in front of it. -/
theorem Follows.bind {g g' : α → Parse β} (h : Follows o k f f')
    (hg : ∀ a, Follows o k (g a) (g' a)) : Follows o k (f >>= g) (f' >>= g') := by
  intro ts p q hcut hlt
  have hrun := h ts p q hcut hlt
  rw [outcome_bind, outcome_bind]
  revert hrun
  rcases outcome f p with ⟨r, p'⟩
  rcases outcome f' q with ⟨r', q'⟩
  rintro (rfl | ⟨hsame, us, hle, hcut'⟩)
  · exact .inl rfl
  · obtain rfl : r' = r := hsame
    cases r' with
    | error e => exact .inr ⟨rfl, us, hle, hcut'⟩
    | ok a =>
      rcases hg a us p' q' hcut' (Nat.lt_of_le_of_lt hle hlt) with hlexical | ⟨hsame, vs, hle', hvs⟩
      · exact .inl hlexical
      · exact .inr ⟨hsame, vs, Nat.le_trans hle' hle, hvs⟩

theorem Follows.ite {c : Prop} [Decidable c] {g g' : Parse α} (hf : c → Follows o k f f')
    (hg : ¬ c → Follows o k g g') : Follows o k (if c then f else g) (if c then f' else g') := by
  split
  · next h => exact hf h
  · next h => exact hg h

theorem outcome_bind_of_error {e : Error} {g : α → Parse β} (h : (outcome f p).1 = .error e) :
    (outcome (f >>= g) p).1 = .error e := by
  rw [outcome_bind]
  revert h
  rcases outcome f p with ⟨r, p'⟩
  rintro rfl
  rfl

theorem outcome_current_bind {g : Option Token → Parse β} :
    outcome (current >>= g) p = outcome (g p.current) p :=
  outcome_bind

/-- Both runs look at the same token. -/
theorem follows_current_bind {g g' : Option Token → Parse β}
    (hg : ∀ t, Follows o k (g (some t)) (g' (some t))) :
    Follows o k (current >>= g) (current >>= g') := by
  intro ts p q hcut hlt
  obtain ⟨t, hp, hq⟩ := hcut.current
  rw [outcome_current_bind, outcome_current_bind, hp, hq]
  exact hg t ts p q hcut hlt

/-- A step comes to the error or has one token less in front of it. -/
theorem outcome_advance_of_cut (h : Cut o ts p q) :
    (outcome advance q).1 = .error (.lexical o) ∨ ∃ t us p' q', ts = t :: us ∧
      outcome advance p = (.ok (), p') ∧ outcome advance q = (.ok (), q') ∧ Cut o us p' q' := by
  obtain ⟨-, hwhole, ls, stop, more, hls, hrest⟩ := h
  obtain ⟨current, rest, pending⟩ := q
  obtain rfl : rest = ls ++ ⟨none, o, stop⟩ :: more := hrest
  cases ts with
  | nil =>
    obtain rfl := List.map_eq_nil_iff.1 hls
    exact .inl rfl
  | cons t us =>
    obtain ⟨⟨token, start, stop'⟩, ls, rfl, htoken, htokens⟩ := List.map_eq_cons_iff.1 hls
    obtain rfl : token = some t := htoken
    obtain ⟨current', rest', pending'⟩ := p
    rcases rest' with _ | ⟨⟨token, start', stop''⟩, rest'⟩
    · simp at hwhole
    · simp only [List.map_cons, List.cons_prefix_cons] at hwhole
      obtain ⟨rfl, hwhole⟩ := hwhole
      exact .inr ⟨t, us, _, _, rfl, rfl, rfl, ⟨t, rfl, rfl⟩, hwhole, ls, stop, more, htokens, rfl⟩

theorem follows_advance_bind {g g' : Unit → Parse β} (hg : Follows o (k - 1) (g ()) (g' ())) :
    Follows o k (advance >>= g) (advance >>= g') := by
  intro ts p q hcut hlt
  rcases outcome_advance_of_cut hcut with hlexical | ⟨t, us, p', q', rfl, hp, hq, hcut'⟩
  · exact .inl (outcome_bind_of_error hlexical)
  · rw [outcome_bind, outcome_bind, hp, hq]
    rw [List.length_cons] at hlt
    rcases hg us p' q' hcut' (by omega) with hlexical | ⟨hsame, vs, hle, hvs⟩
    · exact .inl hlexical
    · exact .inr ⟨hsame, vs, Nat.le_succ_of_le hle, hvs⟩

/-! ## Single tokens -/

/-- A parser that steps past the token it looks at or fails. -/
theorem follows_token_bind {read : Option Token → Parse α} {g g' : α → Parse β}
    (hread : ∀ t, (∃ a, read (some t) = advance >>= fun _ => pure a) ∨
      ∃ fault, read (some t) = fail fault)
    (hg : ∀ a, Follows o (k - 1) (g a) (g' a)) :
    Follows o k ((current >>= read) >>= g) ((current >>= read) >>= g') := by
  rw [bind_assoc, bind_assoc]
  refine follows_current_bind fun t => ?_
  rcases hread t with ⟨a, ha⟩ | ⟨fault, hfault⟩
  · rw [ha, bind_assoc, bind_assoc]
    apply follows_advance_bind
    rw [pure_bind, pure_bind]
    exact hg a
  · rw [hfault]
    exact fun ts _ _ hcut _ => .inr ⟨rfl, ts, Nat.le_refl _, hcut⟩

theorem follows_expect_bind {token : Token} {g g' : Unit → Parse β}
    (hg : Follows o (k - 1) (g ()) (g' ())) :
    Follows o k (expect token >>= g) (expect token >>= g') := by
  refine follows_token_bind (fun t => ?_) fun _ => hg
  by_cases ht : some t = some token
  · exact .inl ⟨(), by rw [if_pos ht]; exact (bind_pure advance).symm⟩
  · exact .inr ⟨_, if_neg ht⟩

theorem follows_expectIdent_bind {g g' : String → Parse β}
    (hg : ∀ name, Follows o (k - 1) (g name) (g' name)) :
    Follows o k (expectIdent >>= g) (expectIdent >>= g') := by
  refine follows_token_bind (fun t => ?_) hg
  cases t with
  | ident name => exact .inl ⟨name, rfl⟩
  | _ => exact .inr ⟨_, rfl⟩

theorem follows_expectIdent : Follows o k expectIdent expectIdent := by
  have h : Follows o k (expectIdent >>= pure) (expectIdent >>= pure) :=
    follows_expectIdent_bind follows_pure
  rwa [bind_pure] at h

theorem follows_expectInt_bind {g g' : Nat → Parse β}
    (hg : ∀ n, Follows o (k - 1) (g n) (g' n)) :
    Follows o k (expectInt >>= g) (expectInt >>= g') := by
  refine follows_token_bind (fun t => ?_) hg
  cases t with
  | int n => exact .inl ⟨n, rfl⟩
  | _ => exact .inr ⟨_, rfl⟩

theorem follows_expectInt : Follows o k expectInt expectInt := by
  have h : Follows o k (expectInt >>= pure) (expectInt >>= pure) :=
    follows_expectInt_bind follows_pure
  rwa [bind_pure] at h

theorem follows_expectIndex : Follows o k expectIndex expectIndex := by
  refine follows_current_bind fun t => .ite (fun _ => ?_) fun _ => ?_
  · exact follows_advance_bind (follows_expectInt.bind fun n => follows_pure _)
  · exact follows_expectInt.bind fun n => follows_pure _

theorem follows_expectCount (field : Keyword) :
    Follows o k (expectCount field) (expectCount field) :=
  follows_expectInt.bind fun _ => .ite (fun _ => follows_pure _) fun _ => follows_fail _

theorem follows_headerField {field : Keyword} {value : Parse α}
    (hvalue : ∀ k, Follows o k value value) :
    Follows o k (headerField field value) (headerField field value) :=
  follows_expect_bind (follows_expect_bind (hvalue _))

/-! ## Lists -/

/-- A repetition whose rounds each step past a token has as many rounds as it needs. -/
theorem follows_rounds {r r' : Nat → Parse α}
    (hround : ∀ j < k, ∀ n n',
      Follows o j (r n) (r' n') → Follows o (j + 1) (r (n + 1)) (r' (n' + 1)))
    (hfuel : k ≤ fuel) (hfuel' : k ≤ fuel') : Follows o k (r fuel) (r' fuel') := by
  induction k generalizing fuel fuel' with
  | zero => exact fun _ _ _ _ hlt => absurd hlt (Nat.not_lt_zero _)
  | succ k ih =>
    obtain ⟨n, rfl⟩ : ∃ n, fuel = n + 1 := ⟨fuel - 1, by omega⟩
    obtain ⟨n', rfl⟩ : ∃ n, fuel' = n + 1 := ⟨fuel' - 1, by omega⟩
    apply hround k (Nat.lt_succ_self k)
    exact ih (fun j hj => hround j (by omega)) (by omega) (by omega)

theorem follows_moreItems (hitem : Follows o k f f') (hfuel : k ≤ fuel) (hfuel' : k ≤ fuel') :
    Follows o k (moreItems f fuel) (moreItems f' fuel') := by
  refine follows_rounds (fun j hj n n' hmore => ?_) hfuel hfuel'
  refine follows_current_bind fun t => .ite (fun _ => ?_) fun _ => follows_pure _
  apply follows_advance_bind
  exact (hitem.mono (Nat.le_of_lt hj)).bind fun _ => hmore.bind fun _ => follows_pure _

theorem follows_tuple (hitem : Follows o k f f') (hfuel : k ≤ fuel) (hfuel' : k ≤ fuel') :
    Follows o k (tuple fuel f) (tuple fuel' f') := by
  have hitems : Follows o k (items fuel f) (items fuel' f') :=
    hitem.bind fun _ => (follows_moreItems hitem hfuel hfuel').bind fun _ => follows_pure _
  apply follows_expect_bind
  refine (hitems.mono (Nat.sub_le k 1)).bind fun as => ?_
  exact follows_expect_bind (follows_pure _)

theorem follows_reference (name : String) (hfuel : k ≤ fuel) (hfuel' : k ≤ fuel') :
    Follows o k (reference fuel name) (reference fuel' name) :=
  (follows_tuple follows_expectIndex hfuel hfuel').bind fun _ => follows_pure _

/-! ## Expressions -/

section

variable {g g' : Parse Expr}

theorem follows_moreOperands (l : Level) (hoperand : Follows o k g g') (hfuel : k ≤ fuel)
    (hfuel' : k ≤ fuel') : Follows o k (moreOperands l g fuel) (moreOperands l g' fuel') := by
  refine follows_rounds (fun j hj n n' hmore => ?_) hfuel hfuel'
  refine follows_current_bind fun t => ?_
  cases t with
  | operator op =>
    refine .ite (fun _ => ?_) fun _ => follows_pure _
    apply follows_advance_bind
    exact (hoperand.mono (Nat.le_of_lt hj)).bind fun _ => hmore.bind fun _ => follows_pure _
  | _ => exact follows_pure _

theorem follows_levels (ls : List Level) (hoperand : Follows o k g g') (hfuel : k ≤ fuel)
    (hfuel' : k ≤ fuel') : Follows o k (levels fuel g ls) (levels fuel' g' ls) := by
  induction ls with
  | nil => exact hoperand
  | cons l ls ih =>
    exact ih.bind fun _ => (follows_moreOperands l ih hfuel hfuel').bind fun _ => follows_pure _

theorem follows_prefixOperators (hfuel : k ≤ fuel) (hfuel' : k ≤ fuel') :
    Follows o k (prefixOperators fuel) (prefixOperators fuel') := by
  refine follows_rounds (fun j hj n n' hmore => ?_) hfuel hfuel'
  refine follows_current_bind fun t => ?_
  cases t with
  | operator op =>
    refine .ite (fun _ => ?_) fun _ => follows_pure _
    apply follows_advance_bind
    exact hmore.bind fun _ => follows_pure _
  | _ => exact follows_pure _

theorem follows_unary (hoperand : Follows o k g g') (hfuel : k ≤ fuel) (hfuel' : k ≤ fuel') :
    Follows o k (unary fuel g) (unary fuel' g') :=
  (follows_prefixOperators hfuel hfuel').bind fun _ => hoperand.bind fun _ => follows_pure _

/-- Behind a parenthesis or a name there is one token less in front of the error. -/
theorem follows_operand (hexpr : Follows o (k - 1) g g') (hfuel : k ≤ fuel) (hfuel' : k ≤ fuel') :
    Follows o k (operand fuel g) (operand fuel' g') := by
  refine follows_current_bind fun t => ?_
  cases t with
  | int n => exact follows_advance_bind (follows_pure _)
  | float v => exact follows_advance_bind (follows_pure _)
  | ident name =>
    apply follows_advance_bind
    refine follows_current_bind fun u => .ite (fun _ => follows_pure _) fun _ => .ite ?_ ?_
    · exact fun _ => (follows_tuple hexpr (by omega) (by omega)).bind fun _ => follows_pure _
    · exact fun _ => (follows_reference name (by omega) (by omega)).bind fun _ => follows_pure _
  | lparen =>
    apply follows_advance_bind
    exact hexpr.bind fun _ => follows_expect_bind (follows_pure _)
  | keyword | operator | equals | rparen | comma | colon => exact follows_fail _

/-- Parentheses are nested no deeper than there are tokens. -/
theorem follows_exprWith (hfuel : k ≤ fuel) (hfuel' : k ≤ fuel') :
    Follows o k (exprWith fuel) (exprWith fuel') := by
  rw [exprWith_eq, exprWith_eq]
  refine follows_rounds (fun j hj n n' hinner => ?_) hfuel hfuel'
  have hoperand : Follows o (j + 1) (operand fuel (exprUpTo fuel n)) _ :=
    follows_operand hinner (Nat.le_trans hj hfuel) (Nat.le_trans hj hfuel')
  exact follows_levels _ (follows_unary hoperand (by omega) (by omega)) (by omega) (by omega)

end

/-! ## Statements -/

theorem follows_input_bind {g g' : Input → Parse β} (hfuel : k ≤ fuel) (hfuel' : k ≤ fuel')
    (hg : ∀ i, Follows o (k - 1) (g i) (g' i)) :
    Follows o k (input fuel >>= g) (input fuel' >>= g') := by
  simp only [input, bind_assoc, pure_bind]
  apply follows_expect_bind
  refine follows_expectIdent_bind fun name => ?_
  refine (follows_tuple follows_expectInt (by omega) (by omega)).bind fun sizes => ?_
  exact (hg _).mono (by omega)

theorem follows_input (hfuel : k ≤ fuel) (hfuel' : k ≤ fuel') :
    Follows o k (input fuel) (input fuel') := by
  have h : Follows o k (input fuel >>= pure) (input fuel' >>= pure) :=
    follows_input_bind hfuel hfuel' follows_pure
  rwa [bind_pure, bind_pure] at h

theorem follows_moreInputs {n n' : Nat} (hfuel : k ≤ fuel) (hfuel' : k ≤ fuel') (hn : k ≤ n)
    (hn' : k ≤ n') : Follows o k (moreInputs fuel n) (moreInputs fuel' n') := by
  refine follows_rounds (fun j hj m m' hmore => ?_) hn hn'
  refine follows_current_bind fun t => .ite (fun _ => ?_) fun _ => follows_pure _
  refine follows_input_bind (by omega) (by omega) fun i => ?_
  exact hmore.bind fun _ => follows_pure _

theorem outcome_atBinding_name {name : String} {l : Lexeme} {ls : List Lexeme}
    (hname : p.current = some (.ident name)) (hrest : p.rest = l :: ls) :
    outcome atBinding p = (.ok (l.token == some .equals), p) := by
  obtain ⟨current, rest, pending⟩ := p
  obtain rfl : current = some (.ident name) := hname
  obtain rfl : rest = l :: ls := hrest
  rfl

theorem outcome_atBinding_other {t : Token} (ht : p.current = some t)
    (hname : ∀ name, t ≠ .ident name) : outcome atBinding p = (.ok false, p) := by
  obtain ⟨current, rest, pending⟩ := p
  obtain rfl : current = some t := ht
  cases t with
  | ident name => exact absurd rfl (hname name)
  | _ => rfl

/-- Whether a binding starts is seen from the token behind a name, and so not where the error comes
next. -/
theorem outcome_atBinding_of_cut (h : Cut o ts p q) :
    (ts = [] ∧ (∃ name, q.current = some (.ident name)) ∧ outcome atBinding q = (.ok false, q)) ∨
      ∃ b, outcome atBinding p = (.ok b, p) ∧ outcome atBinding q = (.ok b, q) := by
  obtain ⟨⟨t, hp, hq⟩, hwhole, ls, stop, more, hls, hrest⟩ := h
  by_cases hother : ∀ name, t ≠ .ident name
  · exact .inr ⟨false, outcome_atBinding_other hp hother, outcome_atBinding_other hq hother⟩
  obtain ⟨name, rfl⟩ : ∃ name, t = .ident name := by simpa using hother
  cases ts with
  | nil =>
    obtain rfl := List.map_eq_nil_iff.1 hls
    exact .inl ⟨rfl, ⟨name, hq⟩, outcome_atBinding_name hq hrest⟩
  | cons u us =>
    obtain ⟨l, ls, rfl, htoken, -⟩ := List.map_eq_cons_iff.1 hls
    rcases hrest' : p.rest with _ | ⟨l', rest'⟩
    · simp [hrest'] at hwhole
    · rw [hrest', List.map_cons, List.map_cons, List.cons_prefix_cons] at hwhole
      have hlook := outcome_atBinding_name hq hrest
      rw [htoken, hwhole.1] at hlook
      exact .inr ⟨_, outcome_atBinding_name hp hrest', hlook⟩

theorem outcome_expectIdent_of_cut {name : String} (h : Cut o [] p q)
    (hname : q.current = some (.ident name)) :
    (outcome expectIdent q).1 = .error (.lexical o) := by
  unfold expectIdent
  rw [outcome_current_bind, hname]
  refine outcome_bind_of_error ((outcome_advance_of_cut h).resolve_right ?_)
  rintro ⟨_, _, _, _, hnil, -⟩
  cases hnil

/-- The bindings and the name behind them. A name in front of the error is not told from a binding,
but then it is read as a name and the error is reported. -/
theorem follows_bindings_bind {n n' : Nat} {g g' : List (Binding Expr) → String → Parse β}
    (hfuel : k ≤ fuel) (hfuel' : k ≤ fuel') (hn : k ≤ n) (hn' : k ≤ n')
    (hg : ∀ bs name, Follows o (k - 1) (g bs name) (g' bs name)) :
    Follows o k (bindings fuel n >>= fun bs => expectIdent >>= g bs)
      (bindings fuel' n' >>= fun bs => expectIdent >>= g' bs) := by
  induction k generalizing n n' g g' with
  | zero => exact fun _ _ _ _ hlt => absurd hlt (Nat.not_lt_zero _)
  | succ k ih =>
    obtain ⟨n, rfl⟩ : ∃ m, n = m + 1 := ⟨n - 1, by omega⟩
    obtain ⟨n', rfl⟩ : ∃ m, n' = m + 1 := ⟨n' - 1, by omega⟩
    simp only [bindings, bind_assoc]
    intro ts p q hcut hlt
    rw [outcome_bind, outcome_bind]
    rcases outcome_atBinding_of_cut hcut with ⟨rfl, ⟨name, hname⟩, hq⟩ | ⟨b, hp, hq⟩
    · rw [hq]
      change (outcome (expectIdent >>= g' []) q).1 = _ ∨ _
      exact .inl (outcome_bind_of_error (outcome_expectIdent_of_cut hcut hname))
    · rw [hp, hq]
      refine (show Follows o (k + 1) _ _ from ?_) ts p q hcut hlt
      cases b with
      | false => exact follows_expectIdent_bind (hg [])
      | true =>
        simp only [if_true, bind_assoc, pure_bind]
        refine follows_expectIdent_bind fun name => ?_
        apply follows_expect_bind
        refine (follows_exprWith (by omega) (by omega)).bind fun value => ?_
        refine Follows.mono (ih (by omega) (by omega) (Nat.le_of_succ_le_succ hn)
          (Nat.le_of_succ_le_succ hn') fun bs name' => ?_) (Nat.sub_le k 1)
        exact (hg _ name').mono (Nat.sub_le k 1)

theorem follows_output (hfuel : k ≤ fuel) (hfuel' : k ≤ fuel') :
    Follows o k (output fuel) (output fuel') := by
  apply follows_expect_bind
  refine follows_bindings_bind (by omega) (by omega) (by omega) (by omega) fun bs name => ?_
  refine (follows_reference name (by omega) (by omega)).bind fun target => ?_
  apply follows_expect_bind
  exact (follows_exprWith (by omega) (by omega)).bind fun value => follows_pure _

/-! ## Entry points -/

theorem outcome_get_bind {g : Parser → Parse β} : outcome (get >>= g) p = outcome (g p) p :=
  outcome_bind

/-- The error is reported unless the run without it stops at one of the tokens in front. -/
theorem Follows.reports (h : Follows o (ts.length + 1) f f') (hcut : Cut o ts p q) :
    (outcome f' q).1 = .error (.lexical o) ∨ ∃ t, (outcome f p).2.current = some t := by
  rcases h ts p q hcut (Nat.lt_succ_self _) with hlexical | ⟨-, us, -, hcut'⟩
  · exact .inl hlexical
  · obtain ⟨t, ht, -⟩ := hcut'.current
    exact .inr ⟨t, ht⟩

theorem expr_reports (h : Cut o ts p q) :
    (outcome expr q).1 = .error (.lexical o) ∨ ∃ t, (outcome expr p).2.current = some t := by
  obtain ⟨hp, hq⟩ := h.length_le
  unfold expr
  rw [outcome_get_bind, outcome_get_bind]
  refine Follows.reports (follows_exprWith ?_ ?_) h
  · exact Nat.succ_le_succ (Nat.le_succ_of_le hp)
  · exact Nat.succ_le_succ (Nat.le_succ_of_le hq)

theorem program_reports (h : Cut o ts p q) (hp : p.pending = none) (hq : q.pending = none) :
    (outcome program q).1 = .error (.lexical o) ∨ ∃ t, (outcome program p).2.current = some t := by
  obtain ⟨hlep, hleq⟩ := h.length_le
  have hfuel : ts.length + 1 ≤ p.fuel := Nat.succ_le_succ (Nat.le_succ_of_le hlep)
  have hfuel' : ts.length + 1 ≤ q.fuel := Nat.succ_le_succ (Nat.le_succ_of_le hleq)
  unfold program
  rw [outcome_get_bind, outcome_get_bind, hp, hq]
  refine Follows.reports ?_ h
  refine (follows_headerField fun _ => follows_expectCount _).bind fun iterate => ?_
  refine (follows_headerField fun _ => follows_expectIdent).bind fun kernelName => ?_
  refine (follows_headerField fun _ => follows_expectCount _).bind fun partitions => ?_
  refine (follows_input hfuel hfuel').bind fun first => ?_
  refine (follows_moreInputs hfuel hfuel' hfuel hfuel').bind fun inputs => ?_
  refine (follows_output hfuel hfuel').bind fun out => ?_
  exact follows_current_bind fun t => follows_fail _

/-! ## No token in front of the error -/

theorem outcome_levels_of_error {g : Parse Expr} {e : Error} (h : (outcome g p).1 = .error e)
    (ls : List Level) : (outcome (levels fuel g ls) p).1 = .error e := by
  induction ls with
  | nil => exact h
  | cons l ls ih => exact outcome_bind_of_error ih

theorem outcome_prefixOperators_none (h : p.current = none) :
    outcome (prefixOperators fuel) p = (.ok [], p) := by
  cases fuel with
  | zero => rfl
  | succ fuel =>
    unfold prefixOperators
    rw [outcome_current_bind, h]
    rfl

/-- Where there is no token, an expression fails for the end of the input. -/
theorem outcome_expr_none (h : p.current = none) :
    (outcome expr p).1 = .error (.parse .endOfInput) := by
  unfold expr
  rw [outcome_get_bind, exprWith_eq, fuel]
  apply outcome_levels_of_error
  unfold unary
  rw [outcome_bind, outcome_prefixOperators_none h]
  apply outcome_bind_of_error
  unfold operand
  rw [outcome_current_bind, h]
  rfl

end Parse

/-! ## Sources -/

open Parse Surface.Parser

variable {α : Type} {f : Parse α} {source : String} {o : Nat} {t : Token} {ts : List Token}

/-- The first piece of the source that is no token starts at byte `o`, and `ts` are the tokens in
front of it. -/
def FirstError (source : String) (ts : List Token) (o : Nat) : Prop :=
  ∃ ls stop more, ls.map (·.token) = ts.map some ∧ lex source = ls ++ ⟨none, o, stop⟩ :: more

/-- The parser reads these tokens to their end. -/
def Accepts (f : Parse α) (ts : List Token) : Prop :=
  ∃ ls : List Lexeme, ls.map (·.token) = ts.map some ∧
    (outcome f (.ofLexemes ls)).1.isOk = true ∧ (outcome f (.ofLexemes ls)).2.current = none

/-- Tokens that the parser accepts, with more of them behind or not. -/
def Viable (f : Parse α) (ts : List Token) : Prop := ∃ us, Accepts f us ∧ ts <+: us

/-- A source without the error, which reads to its end. -/
theorem Viable.exists_cut (h : Viable f (t :: ts)) (hfirst : FirstError source (t :: ts) o) :
    ∃ p, (∀ u, (outcome f p).2.current ≠ some u) ∧ Cut o ts p (.ofSource source) ∧
      p.pending = none ∧ (Parser.ofSource source).pending = none := by
  obtain ⟨us, ⟨ls, hls, -, hend⟩, vs, rfl⟩ := h
  obtain ⟨ls', stop, more, hls', hsource⟩ := hfirst
  refine ⟨.ofLexemes ls, by simp [hend], ?_⟩
  obtain ⟨⟨token, start, stop'⟩, ls', rfl, htoken, htokens⟩ := List.map_eq_cons_iff.1 hls'
  obtain rfl : token = some t := htoken
  obtain ⟨⟨token, start', stop''⟩, ls, rfl, htoken, hrest⟩ := List.map_eq_cons_iff.1 hls
  obtain rfl : token = some t := htoken
  rw [Parser.ofSource, hsource]
  refine ⟨⟨⟨t, rfl, rfl⟩, ?_, ls', stop, more, htokens, rfl⟩, rfl, rfl⟩
  change ts.map some <+: ls.map (·.token)
  rw [hrest]
  exact (List.prefix_append ts vs).map some

theorem ofSource_of_firstError (h : FirstError source [] o) :
    (Parser.ofSource source).current = none ∧
      (Parser.ofSource source).pending = some (.lexical o) := by
  obtain ⟨ls, stop, more, hls, hsource⟩ := h
  obtain rfl := List.map_eq_nil_iff.1 hls
  rw [Parser.ofSource, hsource]
  exact ⟨rfl, rfl⟩

theorem parseProgram_of_pending {e : Error} (h : (Parser.ofSource source).pending = some e) :
    parseProgram source = .error e := by
  change (outcome program (.ofSource source)).1 = _
  unfold program
  rw [outcome_get_bind, h]
  rfl

theorem parseExpr_of_none (h : (Parser.ofSource source).current = none) :
    parseExpr source = .error (.parse .endOfInput) :=
  outcome_expr_none h

/-- A source whose tokens in front of its first error could start a program fails with that error.
One whose tokens could start an expression does so too, read as an expression, exactly if there is a
token in front of the error. -/
theorem first_error_reported (h : FirstError source ts o) :
    (Viable program ts → parseProgram source = .error (.lexical o)) ∧
      (Viable expr ts → (parseExpr source = .error (.lexical o) ↔ ts ≠ [])) := by
  cases ts with
  | nil =>
    obtain ⟨hcurrent, hpending⟩ := ofSource_of_firstError h
    exact ⟨fun _ => parseProgram_of_pending hpending, fun _ => by simp [parseExpr_of_none hcurrent]⟩
  | cons t ts =>
    constructor
    · intro hviable
      obtain ⟨p, hend, hcut, hp, hq⟩ := hviable.exists_cut h
      exact (program_reports hcut hp hq).resolve_right (not_exists.2 hend)
    · intro hviable
      obtain ⟨p, hend, hcut, -⟩ := hviable.exists_cut h
      have hreports := (expr_reports hcut).resolve_right (not_exists.2 hend)
      exact iff_of_true hreports (List.cons_ne_nil t ts)

/-- A name at the error could start a binding, and the error is one character of two bytes. -/
theorem names_before_error_reported :
    (∃ ts, FirstError "ITERATE: 1 KERNEL: k COUNT: 1 input a(8) output t = 2 b é" ts 56 ∧
      Viable program ts ∧
      parseProgram "ITERATE: 1 KERNEL: k COUNT: 1 input a(8) output t = 2 b é" =
        .error (.lexical 56)) ∧
    ∃ ts, FirstError "-fabs(a $ b" ts 8 ∧ Viable expr ts ∧
      parseExpr "-fabs(a $ b" = .error (.lexical 8) := by
  let source := "ITERATE: 1 KERNEL: k COUNT: 1 input a(8) output t = 2 b é"
  let finished := "ITERATE: 1 KERNEL: k COUNT: 1 input a(8) output t = 2 b(0) = t"
  constructor
  · let ts := (lex source).filterMap (·.token)
    have hfirst : FirstError source ts 56 := ⟨(lex source).take 19, 58, [], by decide +kernel⟩
    have hviable : Viable program ts :=
      ⟨(lex finished).filterMap (·.token), ⟨lex finished, by decide +kernel⟩, by decide +kernel⟩
    exact ⟨ts, hfirst, hviable, (first_error_reported hfirst).1 hviable⟩
  · let ts : List Token := [.operator .minus, .ident "fabs", .lparen, .ident "a"]
    have hfirst : FirstError "-fabs(a $ b" ts 8 :=
      ⟨(lex "-fabs(a $ b").take 4, 9, (lex "-fabs(a $ b").drop 5, by decide +kernel⟩
    have hviable : Viable expr ts :=
      ⟨ts ++ [.rparen], ⟨lex "-fabs(a)", by decide +kernel⟩, by decide +kernel⟩
    exact ⟨ts, hfirst, hviable, ((first_error_reported hfirst).2 hviable).2 (by simp [ts])⟩

/-- An error with nothing in front of it is the end of the input to an expression. -/
theorem leading_error_unreported :
    FirstError "$" [] 0 ∧ Viable expr [] ∧ parseProgram "$" = .error (.lexical 0) ∧
      parseExpr "$" = .error (.parse .endOfInput) := by
  refine ⟨⟨[], 1, [], by decide +kernel⟩, ?_, rfl, rfl⟩
  exact ⟨[.ident "a"], ⟨lex "a", by decide +kernel⟩, List.nil_prefix⟩

end GridSweep.Surface
