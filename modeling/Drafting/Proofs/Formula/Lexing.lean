import Drafting.Proofs.Formula.Spelling
import Drafting.Proofs.Result

namespace Drafting

/-!
# The lexer follows what is written

How tokens are written: a name as a letter and what may follow one, a numeral as digits and at most
one point, all others as one character; blanks may stand between them.  A name or numeral has to end
where the next character cannot continue it, and a name in front of a parenthesis is a call.  The
lexer takes apart what is written in this way.

* `Lexer.IsName`, `Lexer.IsDecimal` — how names and numerals are written;
* `Lexer.Writes` — characters that write a list of tokens;
* `Lexer.Writes.tokens` — the lexer comes to these tokens;
* `Formula.ofText_of_writes` — and the reader to the formula that they spell.
-/

variable {F : Type}

namespace Numeral

/-- One more character of a numeral. -/
def add (n : Numeral) (c : Char) : Numeral := if c.isDigit then n.addDigit c else n.addPoint

/-- The numeral that characters write. -/
def ofChars (cs : List Char) : Numeral := cs.foldl add empty

end Numeral

/-- The place behind some characters. -/
def Position.pastAll (p : Position) (cs : List Char) : Position := cs.foldl past p

namespace Lexer

/-! ### Characters -/

/-- A name: a letter, and behind it letters, digits and underscores. -/
def IsName : List Char → Prop
  | [] => False
  | c :: rest => isNameStart c = true ∧ ∀ d ∈ rest, isNameChar d = true

instance : ∀ cs, Decidable (IsName cs)
  | [] => .isFalse id
  | c :: rest =>
    decidable_of_iff (isNameStart c = true ∧ rest.all isNameChar = true) (by simp [IsName])

/-- A numeral: digits, of which there is at least one, and at most one point. -/
structure IsDecimal (cs : List Char) : Prop where
  chars : ∀ c ∈ cs, c.isDigit = true ∨ c = '.'
  digit : ∃ c ∈ cs, c.isDigit = true
  point : cs.count '.' ≤ 1

theorem isDigit_iff {c : Char} : c.isDigit = true ↔ 48 ≤ c.toNat ∧ c.toNat ≤ 57 := by
  simp [Char.isDigit, UInt32.le_iff_toNat_le, ← Char.toNat_val]

theorem isNameStart_iff {c : Char} :
    isNameStart c = true ↔ 65 ≤ c.toNat ∧ c.toNat ≤ 90 ∨ 97 ≤ c.toNat ∧ c.toNat ≤ 122 := by
  delta isNameStart Char.isAlpha Char.isUpper Char.isLower
  simp [UInt32.le_iff_toNat_le, ← Char.toNat_val]

theorem ne_point_of_isDigit {c : Char} (h : c.isDigit = true) : c ≠ '.' := by
  rintro rfl
  exact absurd h (by decide)

/-- The visible characters of ASCII are not blank. -/
theorem isBlank_eq_false {c : Char} (h : 33 ≤ c.toNat) (h' : c.toNat ≤ 126) :
    Text.isBlank c = false := by
  simp [Text.isBlank, Text.inRanges, Text.blankRanges]
  omega

theorem isBlank_of_isNameStart {c : Char} (h : isNameStart c = true) : Text.isBlank c = false := by
  rw [isNameStart_iff] at h
  exact isBlank_eq_false (by omega) (by omega)

theorem isBlank_of_isDigit {c : Char} (h : c.isDigit = true) : Text.isBlank c = false := by
  rw [isDigit_iff] at h
  exact isBlank_eq_false (by omega) (by omega)

theorem isNameStart_of_isDigit {c : Char} (h : c.isDigit = true) : isNameStart c = false := by
  rw [isDigit_iff] at h
  rw [Bool.eq_false_iff, ne_eq, isNameStart_iff]
  omega

/-- All characters of a name are characters that may stand in names. -/
theorem IsName.isNameChar {cs : List Char} (h : IsName cs) : ∀ c ∈ cs, isNameChar c = true := by
  cases cs with
  | nil => cases h
  | cons c rest =>
    have starts : Lexer.isNameChar c = true := by
      have alpha : c.isAlpha = true := h.1
      simp [Lexer.isNameChar, Char.isAlphanum, alpha]
    exact List.forall_mem_cons.mpr ⟨starts, h.2⟩

/-- More characters of a name. -/
theorem IsName.append {cs ds : List Char} (h : IsName cs) (hds : ∀ d ∈ ds, Lexer.isNameChar d) :
    IsName (cs ++ ds) := by
  cases cs with
  | nil => cases h
  | cons c rest =>
    refine ⟨h.1, fun d hd => ?_⟩
    rcases List.mem_append.mp hd with hd | hd
    · exact h.2 d hd
    · exact hds d hd

/-! ### Names and numerals -/

variable [Scalar F]

/-- The characters of a name, from the second one on. -/
theorem run_name {p : Position} {letters cs : List Char} (h : ∀ c ∈ cs, isNameChar c = true)
    (q : Position) (tokens : List (PlacedToken F)) :
    run ⟨q, .name p letters, tokens⟩ cs =
      .ok ⟨q.pastAll cs, .name p ((cs.map Char.toLower).reverse ++ letters), tokens⟩ := by
  induction cs generalizing q letters with
  | nil => rfl
  | cons c rest ih =>
    obtain ⟨hc, hrest⟩ := List.forall_mem_cons.mp h
    have first : step ⟨q, .name p letters, tokens⟩ c =
        .ok ⟨q.past c, .name p (c.toLower :: letters), tokens⟩ := if_pos hc
    rw [run_cons, first, Except.bind, ih hrest]
    simp [Position.pastAll]

/-- The lexer on a name. -/
theorem run_of_isName {s : Lexer F} {cs : List Char} (hs : s.pending = .none) (h : IsName cs) :
    s.run cs = .ok
      ⟨s.position.pastAll cs, .name s.position (cs.map Char.toLower).reverse, s.tokens⟩ := by
  obtain ⟨q, pending, tokens⟩ := s
  subst hs
  cases cs with
  | nil => cases h
  | cons c rest =>
    have first : step ⟨q, .none, tokens⟩ c =
        .ok ⟨q.past c, .name q [c.toLower], tokens⟩ := by
      show begin _ c = _
      rw [begin, isBlank_of_isNameStart h.1, if_neg Bool.false_ne_true, if_pos h.1]
      rfl
    rw [run_cons, first, Except.bind, run_name h.2]
    simp [Position.pastAll]

omit [Scalar F] in
/-- Another character of a numeral leaves at most one point. -/
theorem count_point_add {n : Numeral} {c : Char} {rest : List Char}
    (hc : c.isDigit = true ∨ c = '.')
    (h : (c :: rest).count '.' + (if n.hasPoint then 1 else 0) ≤ 1) :
    rest.count '.' + (if (n.add c).hasPoint then 1 else 0) ≤ 1 := by
  rcases hc with hc | rfl
  · simpa [Numeral.add, hc, Numeral.addDigit, List.count_cons_of_ne (ne_point_of_isDigit hc)]
      using h
  · rw [List.count_cons_self] at h
    simp [Numeral.add, Numeral.addPoint]
    omega

/-- One character of a numeral, from the second one on. -/
theorem step_numeral {p q : Position} {n : Numeral} {c : Char} {tokens : List (PlacedToken F)}
    (h : c.isDigit = true ∨ c = '.') :
    step ⟨q, .numeral p n, tokens⟩ c =
      if c = '.' ∧ n.hasPoint = true then .error ⟨.secondPoint, q⟩
      else .ok ⟨q.past c, .numeral p (n.add c), tokens⟩ := by
  rcases h with hdigit | rfl
  · simp [step, Numeral.add, hdigit, ne_point_of_isDigit hdigit, advance]
  · simp [step, Numeral.add, advance]

/-- The characters of a numeral, from the second one on. -/
theorem run_numeral {p : Position} {n : Numeral} {cs : List Char}
    (h : ∀ c ∈ cs, c.isDigit = true ∨ c = '.')
    (hpoint : cs.count '.' + (if n.hasPoint then 1 else 0) ≤ 1) (q : Position)
    (tokens : List (PlacedToken F)) :
    run ⟨q, .numeral p n, tokens⟩ cs =
      .ok ⟨q.pastAll cs, .numeral p (cs.foldl Numeral.add n), tokens⟩ := by
  induction cs generalizing q n with
  | nil => rfl
  | cons c rest ih =>
    obtain ⟨hc, hrest⟩ := List.forall_mem_cons.mp h
    have first : ¬ (c = '.' ∧ n.hasPoint = true) := by
      rintro ⟨rfl, seen⟩
      rw [List.count_cons_self, if_pos seen] at hpoint
      omega
    rw [run_cons, step_numeral hc, if_neg first, Except.bind, ih hrest (count_point_add hc hpoint)]
    rfl

/-- The first character of a numeral. -/
theorem step_of_isNumeralStart {s : Lexer F} {c : Char} (hs : s.pending = .none)
    (h : c.isDigit = true ∨ c = '.') :
    s.step c = .ok ⟨s.position.past c, .numeral s.position (Numeral.empty.add c), s.tokens⟩ := by
  rw [step, hs]
  show begin s c = _
  rcases h with hdigit | rfl
  · rw [begin, isBlank_of_isDigit hdigit, if_neg Bool.false_ne_true, isNameStart_of_isDigit hdigit,
      if_neg Bool.false_ne_true, if_pos hdigit, Numeral.add, if_pos hdigit]
    rfl
  · rfl

/-- The lexer on a numeral. -/
theorem run_of_isDecimal {s : Lexer F} {cs : List Char} (hs : s.pending = .none)
    (h : IsDecimal cs) :
    s.run cs = .ok ⟨s.position.pastAll cs, .numeral s.position (.ofChars cs), s.tokens⟩ := by
  obtain ⟨chars, digit, point⟩ := h
  cases cs with
  | nil => simp at digit
  | cons c rest =>
    obtain ⟨hc, hrest⟩ := List.forall_mem_cons.mp chars
    rw [run_cons, step_of_isNumeralStart hs hc, Except.bind,
      run_numeral hrest (count_point_add (n := .empty) hc point)]
    rfl

omit [Scalar F] in
/-- A numeral has a digit once one was read. -/
theorem hasDigit_foldl {n : Numeral} {cs : List Char} :
    (cs.foldl Numeral.add n).hasDigit = true ↔
      n.hasDigit = true ∨ ∃ c ∈ cs, c.isDigit = true := by
  induction cs generalizing n with
  | nil => simp
  | cons c rest ih =>
    rw [List.foldl_cons, ih]
    by_cases hc : c.isDigit = true
    · simp [Numeral.add, hc, Numeral.addDigit]
    · simp [Numeral.add, hc, Numeral.addPoint]

/-! ### The end of a token -/

/-- The character cannot continue what the lexer is in the middle of. -/
def Stops (c : Char) : PartialToken → Prop
  | .none => True
  | .name _ _ => isNameChar c = false
  | .numeral _ _ => c.isDigit = false ∧ c ≠ '.'

/-- Where a token ends, it may be completed before what follows is read. -/
theorem run_finish_of_complete {s s' : Lexer F} {cs : List Char}
    (hcomplete : s.complete cs.head? = .ok s') (hs' : s'.pending = .none)
    (hstops : ∀ c ∈ cs.head?, Stops c s.pending) :
    (s.run cs >>= finish) = (s'.run cs >>= finish) := by
  have completed : ∀ next, s'.complete next = .ok s' := by
    intro next
    rw [complete, hs']
  cases cs with
  | nil =>
    -- both end at once, and completing twice is completing once
    show s.finish = s'.finish
    have same : s.complete none = .ok s' := hcomplete
    rw [finish, finish, same, completed]
  | cons c rest =>
    -- the next character ends the token, and starts whatever it starts
    have here : s'.step c = s'.begin c := by rw [step, hs']
    have there : s.step c = s'.begin c := by
      have stops := hstops c rfl
      rw [List.head?_cons] at hcomplete
      unfold step
      split
      · next pending =>
        rw [complete, pending] at hcomplete
        rw [Except.ok.inj hcomplete]
      · next pending =>
        rw [pending] at stops
        rw [stops, if_neg Bool.false_ne_true, hcomplete]
        rfl
      · next pending =>
        rw [pending] at stops
        rw [stops.1, if_neg Bool.false_ne_true, if_neg stops.2, hcomplete]
        rfl
    rw [run_cons, run_cons, here, there]

/-! ### Texts -/

/-- The characters write these tokens, up to the end of the text. -/
inductive Writes : List Char → List (Token F) → Prop where
  | nil : Writes [] []
  | blank {c cs ts} (hc : Text.isBlank c = true) : Writes cs ts → Writes (c :: cs) ts
  | single {c t cs ts} (hc : singleToken? c = some t) : Writes cs ts → Writes (c :: cs) (t :: ts)
  | symbol {w cs ts} (hw : IsName w)
    (stops : ∀ c ∈ cs.head?, isNameChar c = false ∧ c ≠ '(') : Writes cs ts →
    Writes (w ++ cs) (.symbol (String.ofList (w.map Char.toLower)) :: ts)
  | call {w cs ts} (hw : IsName w) : Writes ('(' :: cs) ts →
    Writes (w ++ '(' :: cs) (.call (String.ofList (w.map Char.toLower)) :: ts)
  | number {w cs ts} (hw : IsDecimal w) (stops : ∀ c ∈ cs.head?, c.isDigit = false ∧ c ≠ '.') :
    Writes cs ts →
    Writes (w ++ cs)
      (.number (Scalar.ofDecimal (Numeral.ofChars w).digits (Numeral.ofChars w).places) :: ts)

omit [Scalar F] in
/-- The characters that are tokens of their own start nothing else. -/
theorem begin_of_singleToken? {c : Char} {t : Token F} (h : singleToken? c = some t)
    (s : Lexer F) : s.begin c = .ok ((s.push t s.position).advance c) := by
  have known : c = '+' ∨ c = '-' ∨ c = '*' ∨ c = '/' ∨ c = '^' ∨ c = '(' ∨ c = ')' ∨ c = ',' := by
    unfold singleToken? at h
    split at h
    · next op hop =>
      have char : op.char = c := by simpa using List.find?_some hop
      subst char
      cases op <;> simp [Operator.char]
    · split at h
      · simp_all
      split at h
      · simp_all
      split at h
      · simp_all
      · cases h
  have starts : Text.isBlank c = false ∧ isNameStart c = false ∧ c.isDigit = false ∧ c ≠ '.' := by
    rcases known with rfl | rfl | rfl | rfl | rfl | rfl | rfl | rfl <;> decide
  obtain ⟨noBlank, noName, noDigit, noPoint⟩ := starts
  rw [begin, noBlank, if_neg Bool.false_ne_true, noName, if_neg Bool.false_ne_true, noDigit,
    if_neg Bool.false_ne_true, if_neg noPoint, h]

/-- **The lexer comes to the tokens that are written.** -/
theorem Writes.tokens {cs : List Char} {ts : List (Token F)} (h : Writes cs ts) (s : Lexer F)
    (hs : s.pending = .none) :
    ∃ r, (s.run cs >>= finish) = .ok r ∧
      r.tokens.map (·.token) = s.tokens.reverse.map (·.token) ++ ts := by
  -- between two tokens nothing is pending, so each token may be completed where it ends
  induction h generalizing s with
  | nil =>
    refine ⟨⟨s.tokens.reverse, s.position⟩, ?_, by simp⟩
    show s.finish = _
    rw [finish, complete, hs]
    rfl
  | @blank c cs ts hc _ ih =>
    have first : s.step c = .ok (s.advance c) := by
      rw [step, hs]
      exact if_pos hc
    obtain ⟨r, hr, htokens⟩ := ih (s.advance c) hs
    exact ⟨r, by rw [run_cons, first]; exact hr, htokens⟩
  | @single c t cs ts hc _ ih =>
    have first : s.step c = .ok ((s.push t s.position).advance c) := by
      rw [step, hs]
      exact begin_of_singleToken? hc s
    obtain ⟨r, hr, htokens⟩ := ih ((s.push t s.position).advance c) hs
    exact ⟨r, by rw [run_cons, first]; exact hr, by simpa [push, advance] using htokens⟩
  | @symbol w cs ts hw stops _ ih =>
    obtain ⟨r, hr, htokens⟩ := ih ⟨s.position.pastAll w, .none,
      ⟨.symbol (String.ofList (w.map Char.toLower)), s.position⟩ :: s.tokens⟩ rfl
    refine ⟨r, ?_, by simpa using htokens⟩
    rw [run_append, run_of_isName hs hw, ← hr]
    refine run_finish_of_complete ?_ rfl fun c hc => (stops c hc).1
    have symbol : cs.head? ≠ some '(' := fun hc => (stops '(' hc).2 rfl
    simp [complete, push, symbol]
  | @call w cs ts hw _ ih =>
    obtain ⟨r, hr, htokens⟩ := ih ⟨s.position.pastAll w, .none,
      ⟨.call (String.ofList (w.map Char.toLower)), s.position⟩ :: s.tokens⟩ rfl
    refine ⟨r, ?_, by simpa using htokens⟩
    rw [run_append, run_of_isName hs hw, ← hr]
    refine run_finish_of_complete ?_ rfl fun c hc => ?_
    · simp [complete, push]
    · obtain rfl : '(' = c := by simpa using hc
      exact (by decide : isNameChar '(' = false)
  | @number w cs ts hw stops _ ih =>
    obtain ⟨r, hr, htokens⟩ := ih ⟨s.position.pastAll w, .none,
      ⟨.number (Scalar.ofDecimal (Numeral.ofChars w).digits (Numeral.ofChars w).places),
        s.position⟩ :: s.tokens⟩ rfl
    refine ⟨r, ?_, by simpa using htokens⟩
    rw [run_append, run_of_isDecimal hs hw, ← hr]
    refine run_finish_of_complete ?_ rfl stops
    have digit : (Numeral.ofChars w).hasDigit = true := hasDigit_foldl.mpr (.inr hw.digit)
    simp [complete, push, digit]

end Lexer

/-- **A text is read as what it spells.** -/
theorem Formula.ofText_of_writes [Scalar F] {text : String} {ts : List (Token F)} {e : Formula F}
    (hwrites : Lexer.Writes text.toList ts) (hspells : Spells .sum ts e)
    (hnests : NestsWithin maxNesting 0 ts) : ofText text = .ok e := by
  obtain ⟨r, hr, htokens⟩ := hwrites.tokens Lexer.start rfl
  have tokenized : tokenize text = .ok r := hr
  rw [ofText, tokenized]
  -- the lexer started without tokens, so those of the text are all there are
  refine ofTokens_eq_ok_iff.mpr ?_
  rw [htokens]
  exact ⟨hspells, hnests⟩

end Drafting
