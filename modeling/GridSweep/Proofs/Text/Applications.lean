import GridSweep.Kernel.Summary
import GridSweep.Token.Lexer

/-!
# Functions and calls in C text

A reader of C text that knows no more than words, brackets, braces and commas. `applications` finds
every word with an argument list behind it, with its arguments and the number of braces around it:
outside all braces it is the head of a function `definition`, and inside it is a call, or a keyword
such as `for`.

`Contributes` says what a piece of text contributes, as far as it is a definition or its word is
one of some names. Pieces compose (`Contributes.append`), a piece without such words contributes
nothing (`contributes_quiet`), and an argument list contributes one application and what stands in
it (`contributes_application`).
-/

namespace GridSweep.CText

/-! ## Reading -/

/-- A word of letters, digits and underscores, or any other character that is no blank. -/
inductive Atom where
  | word (text : String)
  | mark (c : Char)
deriving DecidableEq, Repr

/-- The word that ends here, given its last character first. -/
def endWord : List Char → List Atom
  | [] => []
  | c :: cs => [.word (String.ofList (c :: cs).reverse)]

/-- Reads on behind the first characters of a word, given last one first. -/
def atomsFrom (word : List Char) : List Char → List Atom
  | [] => endWord word
  | c :: cs =>
    if Lexer.isWordPart c then atomsFrom (c :: word) cs
    else endWord word ++ ((if Lexer.isBlank c then [] else [.mark c]) ++ atomsFrom [] cs)

def atoms (text : String) : List Atom := atomsFrom [] text.toList

/-- The arguments up to the parenthesis that closes them, inside `level` more parentheses and behind
the first atoms of an argument. -/
def splitArguments (level : Nat) (current : List Atom) : List Atom → List (List Atom)
  | [] => [current]
  | a :: as =>
    if a = .mark '(' then splitArguments (level + 1) (current ++ [a]) as
    else if a = .mark ')' then
      if level = 0 then [current] else splitArguments (level - 1) (current ++ [a]) as
    else if a = .mark ',' ∧ level = 0 then current :: splitArguments 0 [] as
    else splitArguments level (current ++ [a]) as

/-- The arguments behind an opening parenthesis; `()` has none. -/
def argumentsOf (as : List Atom) : List (List Atom) :=
  match splitArguments 0 [] as with
  | [[]] => []
  | args => args

/-- A word with an argument list behind it, inside `depth` braces. -/
structure Application where
  depth : Nat
  name : String
  args : List (List Atom)
deriving DecidableEq, Repr

/-- All applications, inside `depth` braces and behind a word or something else. -/
def applicationsFrom (depth : Nat) (before : Option String) : List Atom → List Application
  | [] => []
  | .word w :: as => applicationsFrom depth (some w) as
  | .mark c :: as =>
    if c = '(' then
      before.toList.map (⟨depth, ·, argumentsOf as⟩) ++ applicationsFrom depth none as
    else if c = '\x7b' then applicationsFrom (depth + 1) none as
    else if c = '\x7d' then applicationsFrom (depth - 1) none as
    else applicationsFrom depth none as

def applications (text : String) : List Application := applicationsFrom 0 none (atoms text)

/-- The heads of function definitions: applications outside all braces. -/
def definitions (text : String) : List Application := (applications text).filter (·.depth = 0)

/-- Applications inside braces. -/
def calls (text : String) : List Application := (applications text).filter (0 < ·.depth)

example : applications "int f(int a, int b) \x7b return g(a, (b, c), ) + h(); \x7d" =
    [⟨0, "f", [[.word "int", .word "a"], [.word "int", .word "b"]]⟩,
      ⟨1, "g", [[.word "a"], [.mark '(', .word "b", .mark ',', .word "c", .mark ')'], []]⟩,
      ⟨1, "h", []⟩] := by
  decide +kernel

/-! ## Atoms of texts put together -/

/-- The text ends with a character that is in no word. -/
def closes (s : String) : Bool := s.toList.getLast?.any (!Lexer.isWordPart ·)

/-- The text starts with a character that is in no word. -/
def opens (s : String) : Bool := s.toList.head?.any (!Lexer.isWordPart ·)

variable {s t : String} {c : Char} {w cs ds : List Char}

theorem atomsFrom_append_mark (hc : Lexer.isWordPart c = false) : atomsFrom w (cs ++ c :: ds) =
    atomsFrom w cs ++ ((if Lexer.isBlank c then [] else [.mark c]) ++ atomsFrom [] ds) := by
  induction cs generalizing w with
  | nil => simp [atomsFrom, hc]
  | cons d cs ih =>
    simp only [List.cons_append, atomsFrom]
    split
    · exact ih
    · rw [ih, List.append_assoc, List.append_assoc]

/-- No word goes on from one text into the next. -/
theorem atoms_append (h : (closes s || opens t) = true) : atoms (s ++ t) = atoms s ++ atoms t := by
  unfold atoms
  rw [String.toList_append]
  rcases Bool.or_eq_true_iff.1 h with hclose | hopen
  · unfold closes at hclose
    obtain ⟨c, hlast, hc⟩ := (Option.any_eq_true ..).1 hclose
    rw [Bool.not_eq_true'] at hc
    obtain ⟨cs, hs⟩ := List.getLast?_eq_some_iff.1 hlast
    rw [hs, List.append_assoc, List.singleton_append, atomsFrom_append_mark hc,
      atomsFrom_append_mark hc, List.append_assoc, List.append_assoc]
    rfl
  · unfold opens at hopen
    obtain ⟨c, hhead, hc⟩ := (Option.any_eq_true ..).1 hopen
    rw [Bool.not_eq_true'] at hc
    obtain ⟨ds, ht⟩ := List.head?_eq_some_iff.1 hhead
    have hstart : atomsFrom [] (c :: ds) =
        (if Lexer.isBlank c then [] else [.mark c]) ++ atomsFrom [] ds := by
      rw [atomsFrom, if_neg (by simp [hc])]
      rfl
    rw [ht, atomsFrom_append_mark hc, hstart]

/-- A text of letters, digits and underscores. -/
def IsName (s : String) : Prop := s ≠ "" ∧ ∀ c ∈ s.toList, Lexer.isWordPart c = true

instance (s : String) : Decidable (IsName s) :=
  decidable_of_iff (s ≠ "" ∧ s.toList.all Lexer.isWordPart = true) (by simp [IsName])

theorem IsName.append (hs : IsName s) (ht : ∀ c ∈ t.toList, Lexer.isWordPart c = true) :
    IsName (s ++ t) := by
  refine ⟨fun h => hs.1 (String.append_eq_empty_iff.1 h).1, fun c hc => ?_⟩
  rw [String.toList_append, List.mem_append] at hc
  exact hc.elim (hs.2 c) (ht c)

theorem atomsFrom_word (h : ∀ c ∈ cs, Lexer.isWordPart c = true) :
    atomsFrom w cs = endWord (cs.reverse ++ w) := by
  induction cs generalizing w with
  | nil => rfl
  | cons c cs ih =>
    obtain ⟨hc, hcs⟩ := List.forall_mem_cons.1 h
    rw [atomsFrom, if_pos hc, ih hcs, List.reverse_cons, List.append_assoc]
    rfl

theorem IsName.atoms_eq (h : IsName s) : atoms s = [.word s] := by
  obtain ⟨hne, hparts⟩ := h
  rw [atoms, atomsFrom_word hparts, List.append_nil]
  cases hs : s.toList.reverse with
  | nil => exact (hne (by simpa using hs)).elim
  | cons c cs => rw [endWord, ← hs, List.reverse_reverse, String.ofList_toList]

theorem mem_of_mem_endWord (h : .mark c ∈ endWord w) : False := by
  cases w <;> simp [endWord] at h

theorem mem_of_mark_mem (h : .mark c ∈ atomsFrom w cs) : c ∈ cs := by
  induction cs generalizing w with
  | nil => exact (mem_of_mem_endWord h).elim
  | cons d cs ih =>
    rw [atomsFrom] at h
    split at h
    · exact List.mem_cons_of_mem _ (ih h)
    · simp only [List.mem_append] at h
      rcases h with h | h | h
      · exact (mem_of_mem_endWord h).elim
      · split at h
        · cases h
        · cases List.mem_singleton.1 h
          exact List.mem_cons_self
      · exact List.mem_cons_of_mem _ (ih h)

/-- A part of a line: fixed text, or something filled in whose atoms are known. -/
inductive Piece where
  | text (s : String)
  | hole (s : String) (as : List Atom) (h : atoms s = as)

namespace Piece

/-- A name filled in. -/
def name (s : String) (h : IsName s) : Piece := .hole s [.word s] h.atoms_eq

def str : Piece → String
  | text s | hole s _ _ => s

def read : Piece → List Atom
  | text s => atoms s
  | hole _ as _ => as

def closes : Piece → Bool
  | text s => CText.closes s
  | hole .. => false

def opens : Piece → Bool
  | text s => CText.opens s
  | hole .. => false

/-- The whole line. -/
def join : List Piece → String
  | [] => ""
  | p :: ps => ps.foldl (fun s q => s ++ q.str) p.str

/-- Fixed text keeps what is filled in apart. -/
def apart : List Piece → Bool
  | p :: q :: ps => (p.closes || q.opens) && apart (q :: ps)
  | _ => true

variable {p : Piece} {ps : List Piece}

theorem atoms_str (p : Piece) : atoms p.str = p.read := by
  cases p with
  | text s => rfl
  | hole s as h => exact h

theorem closes_append (h : p.closes = true) : CText.closes (s ++ p.str) = true := by
  cases p with
  | text t =>
    unfold closes CText.closes at h
    obtain ⟨c, hlast, hc⟩ := (Option.any_eq_true ..).1 h
    unfold CText.closes str
    rw [String.toList_append, List.getLast?_append, hlast]
    exact hc
  | hole => cases h

theorem opens_str (h : p.opens = true) : CText.opens p.str = true := by
  cases p with
  | text t => exact h
  | hole => cases h

theorem atoms_foldl (hlast : ∃ t, s = t ++ p.str) (h : apart (p :: ps) = true) :
    atoms (ps.foldl (fun s q => s ++ q.str) s) = atoms s ++ ps.flatMap read := by
  induction ps generalizing s p with
  | nil => simp
  | cons q ps ih =>
    obtain ⟨t, rfl⟩ := hlast
    obtain ⟨hseam, hrest⟩ := Bool.and_eq_true_iff.1 h
    have hstep : (CText.closes (t ++ p.str) || CText.opens q.str) = true :=
      Bool.or_eq_true_iff.2 ((Bool.or_eq_true_iff.1 hseam).imp closes_append opens_str)
    rw [List.foldl_cons, ih ⟨_, rfl⟩ hrest, atoms_append hstep, atoms_str, List.flatMap_cons,
      List.append_assoc]

/-- A line has the atoms of its parts. -/
theorem atoms_join (ps : List Piece) (h : apart ps = true) :
    atoms (join ps) = ps.flatMap read := by
  cases ps with
  | nil => rfl
  | cons p ps => rw [join, atoms_foldl ⟨"", by simp⟩ h, atoms_str, List.flatMap_cons]

end Piece

/-- Atoms of lines. -/
def lineAtoms (lines : List String) : List Atom := lines.flatMap atoms

theorem atoms_unlines (lines : List String) : atoms (unlines lines) = lineAtoms lines := by
  induction lines with
  | nil => rfl
  | cons line lines ih =>
    have hcons : unlines (line :: lines) = line ++ "\n" ++ unlines lines := by
      simp [unlines, String.join_cons]
    have hclose : closes (line ++ "\n") = true := by simp [closes]; decide
    rw [hcons, atoms_append (by simp [hclose]), atoms_append (Bool.or_eq_true_iff.2 (.inr rfl)), ih]
    simp [lineAtoms, show atoms "\n" = [] from rfl]

/-- Argument lists with commas between them. -/
def separated (args : List (List Atom)) : List Atom := [.mark ','].intercalate args

theorem separated_singleton (a : List Atom) : separated [a] = a := by
  simp [separated, List.intercalate]

theorem separated_cons_cons (a b : List Atom) (args : List (List Atom)) :
    separated (a :: b :: args) = a ++ .mark ',' :: separated (b :: args) := by
  simp [separated, List.intercalate]

theorem atoms_commas (items : List String) :
    atoms (Listing.commas items) = separated (items.map atoms) := by
  unfold Listing.commas
  induction items with
  | nil => rfl
  | cons x items ih =>
    cases items with
    | nil => simp [separated_singleton]
    | cons y items =>
      have hseam : opens (", " ++ ", ".intercalate (y :: items)) = true := by
        rw [opens, String.toList_append]
        rfl
      rw [String.intercalate_cons_cons, String.append_assoc, atoms_append (by simp [hseam]),
        atoms_append (Bool.or_eq_true_iff.2 (.inl rfl)), ih]
      exact (separated_cons_cons ..).symm

/-! ## What a piece of text contributes -/

variable {names ks : List String} {d d' d'' : Nat} {before : Option String}
  {as bs rest : List Atom} {a : Atom} {apps apps' : List Application} {f : String}
  {args : List (List Atom)}

/-- Definitions, and calls of the given functions. -/
def relevant (names : List String) (a : Application) : Bool := a.depth = 0 || a.name ∈ names

def found (names : List String) (depth : Nat) (before : Option String) (as : List Atom) :
    List Application :=
  (applicationsFrom depth before as).filter (relevant names)

/-- A piece of text with these relevant applications, which leads from one depth to another. -/
structure Contributes (names : List String) (d : Nat) (as : List Atom) (d' : Nat)
    (apps : List Application) : Prop where
  starts : as.head? ≠ some (.mark '(')
  found_append : ∀ before rest, rest.head? ≠ some (.mark '(') →
    found names d before (as ++ rest) = apps ++ found names d' none rest

theorem found_before (h : as.head? ≠ some (.mark '(')) (before : Option String) :
    found names d before as = found names d none as := by
  rcases as with _ | ⟨_ | c, as⟩
  · rfl
  · rfl
  · have hc : c ≠ '(' := by
      rintro rfl
      exact h rfl
    simp only [found, applicationsFrom, if_neg hc]

theorem contributes_nil : Contributes names d [] d [] where
  starts := by simp
  found_append before rest hrest := found_before hrest before

theorem Contributes.append (h : Contributes names d as d' apps)
    (h' : Contributes names d' bs d'' apps') :
    Contributes names d (as ++ bs) d'' (apps ++ apps') where
  starts := by
    cases as with
    | nil => exact h'.starts
    | cons a as => exact h.starts
  found_append before rest hrest := by
    have hnext : (bs ++ rest).head? ≠ some (.mark '(') := by
      cases bs with
      | nil => exact hrest
      | cons b bs => exact h'.starts
    rw [List.append_assoc, h.found_append before _ hnext, h'.found_append none _ hrest,
      List.append_assoc]

theorem Contributes.flatMap {α : Type} {xs : List α} {g : α → List Atom} {k : α → List Application}
    (h : ∀ x ∈ xs, Contributes names d (g x) d (k x)) :
    Contributes names d (xs.flatMap g) d (xs.flatMap k) := by
  induction xs with
  | nil => exact contributes_nil
  | cons x xs ih =>
    obtain ⟨hx, hxs⟩ := List.forall_mem_cons.1 h
    rw [List.flatMap_cons, List.flatMap_cons]
    exact hx.append (ih hxs)

/-! ### Text without relevant words -/

/-- The words right in front of an opening parenthesis. -/
def headsFrom (before : Option String) : List Atom → List String
  | [] => []
  | .word w :: as => headsFrom (some w) as
  | .mark c :: as => (if c = '(' then before.toList else []) ++ headsFrom none as

/-- No braces, and parentheses only behind some words or behind no word. -/
def inert (ks : List String) (as : List Atom) : Bool :=
  as.all (fun a => a ≠ .mark '\x7b' ∧ a ≠ .mark '\x7d') && (headsFrom none as).all (· ∈ ks)

/-- No parentheses, braces or commas. -/
def flat (as : List Atom) : Bool :=
  as.all fun a => a ≠ .mark '(' ∧ a ≠ .mark ')' ∧ a ≠ .mark ',' ∧ a ≠ .mark '\x7b' ∧
    a ≠ .mark '\x7d'

theorem found_quiet (hbraces : ∀ a ∈ as, a ≠ .mark '\x7b' ∧ a ≠ .mark '\x7d')
    (hheads : ∀ w ∈ headsFrom before as, 0 < d ∧ w ∉ names)
    (hrest : rest.head? ≠ some (.mark '(')) :
    found names d before (as ++ rest) = found names d none rest := by
  induction as generalizing before with
  | nil => exact found_before hrest before
  | cons a as ih =>
    obtain ⟨⟨hopen, hclose⟩, has⟩ := List.forall_mem_cons.1 hbraces
    cases a with
    | word w => exact ih has hheads
    | mark c =>
      have hopen' : c ≠ '\x7b' := fun h => hopen (h ▸ rfl)
      have hclose' : c ≠ '\x7d' := fun h => hclose (h ▸ rfl)
      simp only [headsFrom, List.mem_append] at hheads
      have hrec := ih has fun w hw => hheads w (.inr hw)
      simp only [found, List.cons_append, applicationsFrom, if_neg hopen', if_neg hclose'] at hrec ⊢
      split
      · next hc =>
        rw [List.filter_append, hrec, List.filter_eq_nil_iff.2, List.nil_append]
        intro x hx
        obtain ⟨w, hw, rfl⟩ := List.mem_map.1 hx
        obtain ⟨hd, hname⟩ := hheads w (.inl (by rwa [if_pos hc]))
        simp [relevant, hname, Nat.ne_of_gt hd]
      · exact hrec

theorem headsFrom_before (h : as.head? ≠ some (.mark '(')) (before : Option String) :
    headsFrom before as = headsFrom none as := by
  rcases as with _ | ⟨_ | c, as⟩
  · rfl
  · rfl
  · have hc : c ≠ '(' := by
      rintro rfl
      exact h rfl
    simp only [headsFrom, if_neg hc]

theorem contributes_quiet (hstarts : as.head? ≠ some (.mark '('))
    (hbraces : ∀ a ∈ as, a ≠ .mark '\x7b' ∧ a ≠ .mark '\x7d')
    (hheads : ∀ w ∈ headsFrom none as, 0 < d ∧ w ∉ names) : Contributes names d as d [] where
  starts := hstarts
  found_append before _ hrest :=
    found_quiet hbraces (by rwa [headsFrom_before hstarts before]) hrest

theorem inert_iff : inert ks as = true ↔
    (∀ a ∈ as, a ≠ .mark '\x7b' ∧ a ≠ .mark '\x7d') ∧ ∀ w ∈ headsFrom none as, w ∈ ks := by
  simp only [inert, Bool.and_eq_true, List.all_eq_true, decide_eq_true_eq]

theorem contributes_inert (hks : ∀ w ∈ ks, 0 < d ∧ w ∉ names)
    (hstarts : as.head? ≠ some (.mark '(')) (h : inert ks as = true) :
    Contributes names d as d [] := by
  obtain ⟨hbraces, hheads⟩ := inert_iff.1 h
  exact contributes_quiet hstarts hbraces fun w hw => hks w (hheads w hw)

/-- Text with no word in front of a parenthesis, which may also stand outside all braces. -/
theorem contributes_wordless (hstarts : as.head? ≠ some (.mark '(')) (h : inert [] as = true) :
    Contributes names d as d [] :=
  contributes_inert (fun _ hw => absurd hw List.not_mem_nil) hstarts h

/-- The word that some atoms end with. -/
def lastWord (before : Option String) : List Atom → Option String
  | [] => before
  | .word w :: as => lastWord (some w) as
  | .mark _ :: as => lastWord none as

theorem headsFrom_append : headsFrom before (as ++ bs) =
    headsFrom before as ++ headsFrom (lastWord before as) bs := by
  induction as generalizing before with
  | nil => rfl
  | cons a as ih =>
    cases a with
    | word w => exact ih
    | mark c => rw [List.cons_append, headsFrom, headsFrom, ih, List.append_assoc, lastWord]

theorem mem_of_mem_headsFrom {w : String} (h : w ∈ headsFrom before as) :
    w ∈ before ∨ w ∈ headsFrom none as := by
  rcases as with _ | ⟨v | c, as⟩
  · cases h
  · exact .inr h
  · rw [headsFrom, List.mem_append] at h
    rcases h with h | h
    · split at h
      · exact .inl (Option.mem_toList.1 h)
      · cases h
    · exact .inr (List.mem_append_right _ h)

theorem inert_append (ha : inert ks as = true) (hb : inert ks bs = true)
    (h : bs.head? ≠ some (.mark '(') ∨ ∀ w ∈ lastWord none as, w ∈ ks) :
    inert ks (as ++ bs) = true := by
  rw [inert_iff] at ha hb ⊢
  refine ⟨fun a ha' => (List.mem_append.1 ha').elim (ha.1 a) (hb.1 a), fun w hw => ?_⟩
  rw [headsFrom_append] at hw
  rcases List.mem_append.1 hw with hw | hw
  · exact ha.2 w hw
  rcases h with hstarts | hlast
  · rw [headsFrom_before hstarts] at hw
    exact hb.2 w hw
  · exact (mem_of_mem_headsFrom hw).elim (hlast w) (hb.2 w)

theorem inert_mono {ks' : List String} (hks : ∀ w ∈ ks, w ∈ ks') (h : inert ks as = true) :
    inert ks' as = true := by
  rw [inert_iff] at h ⊢
  exact ⟨h.1, fun w hw => hks w (h.2 w hw)⟩

theorem inert_join (ps : List Piece) (hapart : Piece.apart ps = true)
    (h : inert ks (ps.flatMap Piece.read) = true) : inert ks (atoms (Piece.join ps)) = true := by
  rwa [Piece.atoms_join ps hapart]

/-- A line that contributes nothing, by its parts. -/
def quietPieces (ks : List String) (ps : List Piece) : Bool :=
  Piece.apart ps && (ps.flatMap Piece.read).head? ≠ some (.mark '(') &&
    inert ks (ps.flatMap Piece.read)

theorem contributes_line {line : String} (ps : List Piece) (hks : ∀ w ∈ ks, 0 < d ∧ w ∉ names)
    (hline : line = Piece.join ps) (hquiet : quietPieces ks ps = true) :
    Contributes names d (atoms line) d [] := by
  simp only [quietPieces, Bool.and_eq_true, decide_eq_true_eq] at hquiet
  obtain ⟨⟨hapart, hstarts⟩, hinert⟩ := hquiet
  rw [hline, Piece.atoms_join ps hapart]
  exact contributes_inert hks hstarts hinert

theorem headsFrom_flat (h : ∀ a ∈ as, a ≠ .mark '(') : headsFrom before as = [] := by
  induction as generalizing before with
  | nil => rfl
  | cons a as ih =>
    obtain ⟨ha, has⟩ := List.forall_mem_cons.1 h
    cases a with
    | word w => exact ih has
    | mark c =>
      have hc : c ≠ '(' := fun hc => ha (hc ▸ rfl)
      rw [headsFrom, if_neg hc, ih has]
      rfl

/-! ### Argument lists -/

/-- A text that stays in one argument. -/
def Solid (as : List Atom) : Prop := ∀ level current rest,
  splitArguments level current (as ++ rest) = splitArguments level (current ++ as) rest

theorem solid_nil : Solid [] := fun _ _ _ => by simp

theorem Solid.append (h : Solid as) (h' : Solid bs) : Solid (as ++ bs) := by
  intro level current rest
  rw [List.append_assoc, h, h', List.append_assoc]

theorem solid_of_flat (h : flat as = true) : Solid as := by
  simp only [flat, List.all_eq_true, decide_eq_true_eq] at h
  induction as with
  | nil => exact solid_nil
  | cons a as ih =>
    obtain ⟨⟨hopen, hclose, hcomma, -⟩, has⟩ := List.forall_mem_cons.1 h
    intro level current rest
    rw [List.cons_append, splitArguments, if_neg hopen, if_neg hclose,
      if_neg fun h => hcomma h.1, ih has, List.append_assoc]
    rfl

/-- Inside parentheses commas do not divide. -/
theorem splitArguments_separated (h : ∀ a ∈ args, Solid a) (level : Nat) (current : List Atom) :
    splitArguments (level + 1) current (separated args ++ rest) =
      splitArguments (level + 1) (current ++ separated args) rest := by
  induction args generalizing current with
  | nil => simp [separated]
  | cons a args ih =>
    obtain ⟨ha, hargs⟩ := List.forall_mem_cons.1 h
    cases args with
    | nil =>
      rw [separated_singleton]
      exact ha (level + 1) current rest
    | cons b args =>
      rw [separated_cons_cons, List.append_assoc, ha, List.cons_append, splitArguments,
        if_neg (by simp), if_neg (by simp), if_neg (by simp), ih hargs]
      simp

/-- The text of a call. -/
def applied (f : String) (args : List (List Atom)) : List Atom :=
  .word f :: .mark '(' :: (separated args ++ [.mark ')'])

theorem solid_applied (h : ∀ a ∈ args, Solid a) : Solid (applied f args) := by
  intro level current rest
  rw [applied, List.cons_append, List.cons_append, List.append_assoc, splitArguments,
    if_neg (by simp), if_neg (by simp), if_neg (by simp), splitArguments, if_pos rfl,
    splitArguments_separated h, List.singleton_append, splitArguments, if_neg (by simp), if_pos rfl,
    if_neg (by omega)]
  simp

theorem splitArguments_closed (h : ∀ a ∈ args, Solid a) (current : List Atom) (hne : args ≠ []) :
    splitArguments 0 current (separated args ++ .mark ')' :: rest) =
      (current ++ args.head hne) :: args.tail := by
  induction args generalizing current with
  | nil => exact (hne rfl).elim
  | cons a args ih =>
    obtain ⟨ha, hargs⟩ := List.forall_mem_cons.1 h
    cases args with
    | nil =>
      rw [separated_singleton, ha, splitArguments, if_neg (by simp), if_pos rfl, if_pos rfl]
      rfl
    | cons b args =>
      rw [separated_cons_cons, List.append_assoc, ha, List.cons_append, splitArguments,
        if_neg (by simp), if_neg (by simp), if_pos ⟨rfl, rfl⟩, ih hargs [] (by simp)]
      simp

theorem argumentsOf_separated (h : ∀ a ∈ args, Solid a) (hone : args ≠ [[]]) :
    argumentsOf (separated args ++ .mark ')' :: rest) = args := by
  unfold argumentsOf
  cases args with
  | nil => rfl
  | cons a args =>
    rw [splitArguments_closed h [] (by simp), List.nil_append, List.head_cons, List.tail_cons]
    split
    · next heq => exact (hone heq).elim
    · rfl

theorem contributes_application (hf : d = 0 ∨ f ∈ names) (hargs : ∀ a ∈ args, Solid a)
    (hone : args ≠ [[]]) (h : Contributes names d (separated args) d apps) :
    Contributes names d (applied f args) d (⟨d, f, args⟩ :: apps) where
  starts := by simp [applied]
  found_append before rest hrest := by
    have hrel : relevant names ⟨d, f, args⟩ = true := by simpa [relevant] using hf
    have hclose : found names d none (.mark ')' :: rest) = found names d none rest := rfl
    have hrec := h.found_append none (.mark ')' :: rest) (by simp)
    rw [hclose] at hrec
    simp only [applied, List.cons_append, List.append_assoc, List.nil_append]
    simp only [found, applicationsFrom, if_true, argumentsOf_separated hargs hone, Option.toList,
      List.map_cons, List.map_nil, List.filter_append, List.filter_cons, hrel,
      List.filter_nil] at hrec ⊢
    rw [hrec, List.cons_append]
    rfl

/-- A call with arguments that hold no calls. -/
theorem contributes_applied (hf : d = 0 ∨ f ∈ names) (hargs : ∀ a ∈ args, flat a = true)
    (hone : args ≠ [[]]) : Contributes names d (applied f args) d [⟨d, f, args⟩] := by
  have hmem : ∀ a ∈ separated args, a ≠ .mark '(' ∧ a ≠ .mark '\x7b' ∧ a ≠ .mark '\x7d' := by
    intro x hx
    clear hone
    induction args with
    | nil => simp [separated] at hx
    | cons a args ih =>
      obtain ⟨ha, hrest⟩ := List.forall_mem_cons.1 hargs
      simp only [flat, List.all_eq_true, decide_eq_true_eq] at ha
      cases args with
      | nil =>
        obtain ⟨hopen, -, -, hbraces⟩ := ha x (by simpa [separated] using hx)
        exact ⟨hopen, hbraces⟩
      | cons b args =>
        rw [separated_cons_cons, List.mem_append, List.mem_cons] at hx
        rcases hx with hx | rfl | hx
        · obtain ⟨hopen, -, -, hbraces⟩ := ha x hx
          exact ⟨hopen, hbraces⟩
        · simp
        · exact ih hrest hx
  refine contributes_application hf (fun a ha => solid_of_flat (hargs a ha)) hone ?_
  refine contributes_quiet (fun h => (hmem _ (List.mem_of_head? h)).1 rfl)
    (fun a ha => (hmem a ha).2) ?_
  rw [headsFrom_flat fun a ha => (hmem a ha).1]
  simp

end GridSweep.CText
