import GridSweep.Proofs.Token.Lexing
import GridSweep.Surface.Parser

/-!
# Running a parser

`Returns f p a p'` says that the parser `f` succeeds in the state `p` with the value `a` and leaves
the state `p'`. Every parser is made of few steps, and what each of them returns is an equivalence,
so a successful run is taken apart and put together by the same lemmas.

`Consumes p ts p'` says that the tokens from `p` on are `ts` until `p'`.
-/

namespace GridSweep.Surface

namespace Parser

variable {p q p' : Parser} {t : Token} {ts us : List Token}

/-- The state at the next token; there is none if the next lexeme is an error. -/
def next? (p : Parser) : Option Parser :=
  match p.rest with
  | [] => some { p with current := none }
  | ⟨some t, _, _⟩ :: ls => some { p with current := some t, rest := ls }
  | ⟨none, _, _⟩ :: _ => none

/-- The tokens passed between two states. -/
inductive Consumes : Parser → List Token → Parser → Prop where
  | nil (p : Parser) : Consumes p [] p
  | cons {p q p' : Parser} {t : Token} {ts : List Token} : p.current = some t →
    p.next? = some q → Consumes q ts p' → Consumes p (t :: ts) p'

theorem consumes_nil_iff : Consumes p [] p' ↔ p' = p :=
  ⟨fun h => by cases h; rfl, fun h => h ▸ .nil p⟩

theorem consumes_cons_iff : Consumes p (t :: ts) p' ↔
    p.current = some t ∧ ∃ q, p.next? = some q ∧ Consumes q ts p' :=
  ⟨fun h => by cases h with | cons ht hq h => exact ⟨ht, _, hq, h⟩,
    fun ⟨ht, _, hq, h⟩ => .cons ht hq h⟩

theorem consumes_append_iff :
    Consumes p (ts ++ us) p' ↔ ∃ q, Consumes p ts q ∧ Consumes q us p' := by
  induction ts generalizing p with
  | nil => simp [consumes_nil_iff]
  | cons t ts ih =>
    simp only [List.cons_append, consumes_cons_iff, ih]
    constructor
    · rintro ⟨ht, q, hq, q', h, h'⟩
      exact ⟨q', ⟨ht, q, hq, h⟩, h'⟩
    · rintro ⟨q', ⟨ht, q, hq, h⟩, h'⟩
      exact ⟨ht, q, hq, q', h, h'⟩

theorem Consumes.single (ht : p.current = some t) (hq : p.next? = some q) : Consumes p [t] q :=
  .cons ht hq (.nil q)

theorem Consumes.append (h : Consumes p ts q) (h' : Consumes q us p') : Consumes p (ts ++ us) p' :=
  consumes_append_iff.2 ⟨q, h, h'⟩

theorem rest_of_next? (h : p.next? = some q) :
    q.rest.length = p.rest.length - 1 ∧ (p.rest = [] → q.current = none) := by
  unfold next? at h
  split at h <;> cases h <;> simp_all

/-- No more tokens are passed than there are. -/
theorem Consumes.length_le (h : Consumes p ts p') : ts.length ≤ p.rest.length + 1 := by
  induction h with
  | nil => simp
  | @cons p q p' t ts _ hq h ih =>
    obtain ⟨hlength, hlast⟩ := rest_of_next? hq
    rw [List.length_cons]
    cases hrest : p.rest with
    | nil =>
      cases h with
      | nil => simp
      | cons ht => simp [hlast hrest] at ht
    | cons l ls =>
      rw [hrest, List.length_cons] at hlength
      rw [List.length_cons]
      omega

/-- All tokens of a state are such that they can come out of a text. -/
def Lexical (p : Parser) : Prop :=
  (∀ t, p.current = some t → t.Lexical) ∧ ∀ l ∈ p.rest, ∀ t, l.token = some t → t.Lexical

theorem Lexical.next? (h : p.Lexical) (hq : p.next? = some q) : q.Lexical := by
  unfold Parser.next? at hq
  split at hq
  · cases hq
    exact ⟨by simp, h.2⟩
  · next hrest =>
    cases hq
    rw [Lexical, hrest] at h
    exact ⟨fun t ht => h.2 _ List.mem_cons_self t ht, fun l hl => h.2 l (List.mem_cons_of_mem _ hl)⟩
  · cases hq

theorem Consumes.lexical (h : Consumes p ts p') (hp : p.Lexical) : ∀ t ∈ ts, t.Lexical := by
  induction h with
  | nil => simp
  | cons ht hq _ ih =>
    intro t hmem
    rcases List.mem_cons.1 hmem with rfl | hmem
    · exact hp.1 _ ht
    · exact ih (hp.next? hq) t hmem

theorem lexical_ofSource (source : String) : (ofSource source).Lexical := by
  have hlex : ∀ l ∈ lex source, ∀ t, l.token = some t → t.Lexical := fun l hl t ht =>
    @Lexer.lexical_of_mem_tokens source.toList t
      (Lexer.map_token_lex source ▸ ht ▸ List.mem_map_of_mem hl)
  unfold ofSource
  cases hsource : lex source with
  | nil => exact ⟨by simp [ofLexemes], by simp [ofLexemes]⟩
  | cons l ls =>
    rw [hsource] at hlex
    obtain ⟨token, start, stop⟩ := l
    have hrest : ∀ l ∈ ls, ∀ t, l.token = some t → t.Lexical := fun l hl =>
      hlex l (List.mem_cons_of_mem _ hl)
    cases token with
    | none => exact ⟨by simp [ofLexemes], hrest⟩
    | some t => exact ⟨fun u hu => hlex _ List.mem_cons_self u hu, hrest⟩

/-- Lexemes without errors are consumed to the end. -/
theorem consumes_ofLexemes {ls : List Lexeme} (h : ls.map (·.token) = ts.map some) :
    Consumes (ofLexemes ls) ts ⟨none, [], none⟩ := by
  induction ts generalizing ls with
  | nil =>
    obtain rfl := List.map_eq_nil_iff.1 h
    exact .nil _
  | cons t ts ih =>
    obtain ⟨⟨token, start, stop⟩, ls, rfl, ht, hls⟩ := List.map_eq_cons_iff.1 h
    dsimp only at ht
    subst ht
    refine .cons rfl ?_ (ih hls)
    cases ls with
    | nil => rfl
    | cons l ls =>
      obtain ⟨token, start, stop⟩ := l
      cases ts with
      | nil => simp at hls
      | cons u us =>
        simp only [List.map_cons, List.cons.injEq] at hls
        obtain ⟨rfl, -⟩ := hls
        rfl

theorem consumes_ofSource {source : String} (h : Lexer.tokens source.toList = ts.map some) :
    Consumes (ofSource source) ts ⟨none, [], none⟩ :=
  consumes_ofLexemes h

end Parser

namespace Parse

open Surface.Parser

variable {α β : Type} {f : Parse α} {g : α → Parse β} {p p' : Parser} {a : α} {b : β}

/-- What a parser gives in a state, and the state after it. -/
def outcome (f : Parse α) (p : Parser) : Except Error α × Parser := f.run p

/-- A run that succeeds. -/
def Returns (f : Parse α) (p : Parser) (a : α) (p' : Parser) : Prop := outcome f p = (.ok a, p')

theorem outcome_bind : outcome (f >>= g) p =
    match outcome f p with
    | (.ok a, q) => outcome (g a) q
    | (.error e, q) => (.error e, q) := by
  change outcome (fun q => ExceptT.bindCont g (outcome f p).1 (outcome f p).2) p = _
  rcases outcome f p with ⟨_ | _, _⟩ <;> rfl

theorem returns_pure {a' : α} : Returns (pure a) p a' p' ↔ a' = a ∧ p' = p := by
  change (Except.ok a, p) = (Except.ok a', p') ↔ _
  simp [eq_comm]

theorem returns_bind :
    Returns (f >>= g) p b p' ↔ ∃ a q, Returns f p a q ∧ Returns (g a) q b p' := by
  unfold Returns
  rw [outcome_bind]
  rcases outcome f p with ⟨_ | a, q⟩
  · simp
  · exact ⟨fun h => ⟨a, q, rfl, h⟩, fun ⟨_, _, h, h'⟩ => by cases h; exact h'⟩

theorem returns_get {q : Parser} : Returns get p q p' ↔ q = p ∧ p' = p := by
  change (Except.ok p, p) = (Except.ok q, p') ↔ _
  simp [eq_comm]

theorem returns_current {t : Option Token} : Returns current p t p' ↔ t = p.current ∧ p' = p := by
  change (Except.ok p.current, p) = (Except.ok t, p') ↔ _
  simp [eq_comm]

theorem not_returns_fail {fault : ParseFault} : ¬ Returns (fail fault : Parse α) p a p' := by
  intro h
  cases h

theorem returns_advance {u : Unit} : Returns advance p u p' ↔ p.next? = some p' := by
  obtain ⟨current, _ | ⟨⟨_ | t, start, stop⟩, ls⟩, pending⟩ := p
  · change (Except.ok (), _) = (Except.ok (), p') ↔ some _ = some p'
    simp
  · change (Except.error _, _) = (Except.ok (), p') ↔ none = some p'
    simp
  · change (Except.ok (), _) = (Except.ok (), p') ↔ some _ = some p'
    simp

theorem returns_current_bind {g : Option Token → Parse β} :
    Returns (current >>= g) p b p' ↔ Returns (g p.current) p b p' := by
  rw [returns_bind]
  constructor
  · rintro ⟨t, q, ht, h⟩
    obtain ⟨rfl, rfl⟩ := returns_current.1 ht
    exact h
  · exact fun h => ⟨p.current, p, returns_current.2 ⟨rfl, rfl⟩, h⟩

/-- A parser that looks at a token and steps past it. -/
theorem returns_of_next {g : Option Token → Parse β} {k : Parse β} {t : Token} {q : Parser}
    (ht : p.current = some t) (hq : p.next? = some q) (hg : g (some t) = advance >>= fun _ => k)
    (hk : Returns k q b p') : Returns (current >>= g) p b p' := by
  rw [returns_current_bind, ht, hg, returns_bind]
  exact ⟨(), q, returns_advance.2 hq, hk⟩

end Parse

end GridSweep.Surface
