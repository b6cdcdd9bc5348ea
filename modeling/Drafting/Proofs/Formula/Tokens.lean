import Drafting.Proofs.Formula.Lexing
import Drafting.Text.Lowercase

namespace Drafting

/-!
# What the lexer accepts is written

A text that the lexer gets through is written as its tokens: between two tokens the lexer has
nothing in hand, and from there it takes the longest name or numeral, a single character or a blank.
So what is known about written tokens is known about the tokens of every text.

* `Lexer.IsPlainName` — names without capital letters, which the lexer leaves as they are;
* `Lexer.exists_writes` — what the lexer gets through is written;
* `Lexer.Writes.plain` — names are plain, and numbers are values of numerals;
* `writes_of_tokenize` — the tokens of a text.
-/

variable {F : Type}

namespace Lexer

/-! ### Plain names -/

/-- A small letter, and behind it small letters, digits and underscores. -/
def IsPlainName : List Char → Prop
  | [] => False
  | c :: rest => c.isLower = true ∧ ∀ d ∈ rest, d.isLower = true ∨ d.isDigit = true ∨ d = '_'

instance : ∀ cs, Decidable (IsPlainName cs)
  | [] => .isFalse id
  | c :: rest =>
    decidable_of_iff
      (c.isLower = true ∧ rest.all (fun d => d.isLower || d.isDigit || d == '_') = true)
      (by simp [IsPlainName, or_assoc])

theorem isUpper_iff {c : Char} : c.isUpper = true ↔ 65 ≤ c.toNat ∧ c.toNat ≤ 90 := by
  delta Char.isUpper
  simp [UInt32.le_iff_toNat_le, ← Char.toNat_val]

theorem isLower_iff {c : Char} : c.isLower = true ↔ 97 ≤ c.toNat ∧ c.toNat ≤ 122 := by
  delta Char.isLower
  simp [UInt32.le_iff_toNat_le, ← Char.toNat_val]

/-- Lower case moves the capital letters alone. -/
theorem toLower_of_not_isUpper {c : Char} (h : ¬ c.isUpper = true) : c.toLower = c :=
  dif_neg fun hc => h (decide_eq_true hc)

/-- The lower case of an upper-case letter is a lower-case letter. -/
theorem isLower_toLower {c : Char} (h : c.isUpper = true) : c.toLower.isLower = true := by
  have bounds := isUpper_iff.mp h
  have moved : c.toLower.toNat = c.toNat + 32 := by
    have shifted : c.toLower = _ := dif_pos (of_decide_eq_true h)
    rw [shifted]
    show (c.val + 32).toNat = c.val.toNat + 32
    have : c.val.toNat ≤ 90 := bounds.2
    rw [UInt32.toNat_add]
    exact Nat.mod_eq_of_lt (by have : (32 : UInt32).toNat = 32 := rfl; omega)
  rw [isLower_iff, moved]
  omega

/-- Lower case makes names plain. -/
theorem IsName.isPlainName {cs : List Char} (h : IsName cs) :
    IsPlainName (cs.map Char.toLower) := by
  have lower {c : Char} (hc : c.isAlpha = true) : c.toLower.isLower = true := by
    by_cases hupper : c.isUpper = true
    · exact isLower_toLower hupper
    · rw [toLower_of_not_isUpper hupper]
      exact (Bool.or_eq_true_iff.mp hc).resolve_left hupper
  cases cs with
  | nil => exact h
  | cons c rest =>
    refine ⟨lower h.1, List.forall_mem_map.mpr fun d hd => ?_⟩
    have hchar := h.2 d hd
    simp only [Lexer.isNameChar, Char.isAlphanum, Bool.or_eq_true, beq_iff_eq] at hchar
    rcases hchar with (halpha | hdigit) | rfl
    · exact .inl (lower halpha)
    · -- digits have no lower case
      have small : ¬ d.isUpper = true := by
        rw [isUpper_iff]
        rw [isDigit_iff] at hdigit
        omega
      rw [toLower_of_not_isUpper small]
      exact .inr (.inl hdigit)
    · exact .inr (.inr rfl)

/-- Names of letters, digits and underscores are names for the lexer. -/
theorem IsPlainName.isName {cs : List Char} (h : IsPlainName cs) : IsName cs := by
  have alpha {c : Char} (hc : c.isLower = true) : c.isAlpha = true :=
    Bool.or_eq_true_iff.mpr (.inr hc)
  cases cs with
  | nil => exact h
  | cons c rest =>
    refine ⟨alpha h.1, fun d hd => ?_⟩
    rcases h.2 d hd with hlower | hdigit | rfl
    · simp [Lexer.isNameChar, Char.isAlphanum, alpha hlower]
    · simp [Lexer.isNameChar, Char.isAlphanum, hdigit]
    · rfl

/-- The characters of a plain name. -/
theorem IsPlainName.of_mem {cs : List Char} (h : IsPlainName cs) {c : Char} (hc : c ∈ cs) :
    c.isLower = true ∨ c.isDigit = true ∨ c = '_' := by
  cases cs with
  | nil => cases hc
  | cons d rest =>
    rcases List.mem_cons.mp hc with rfl | hc
    · exact .inl h.1
    · exact h.2 c hc

/-- The lexer leaves plain names as they are. -/
theorem IsPlainName.asciiFold_eq {name : String} (h : IsPlainName name.toList) :
    Text.asciiFold name = name := by
  have small : ∀ c ∈ name.toList, c.toLower = c := by
    intro c hc
    refine toLower_of_not_isUpper ?_
    rw [isUpper_iff]
    rcases h.of_mem hc with hlower | hdigit | rfl
    · rw [isLower_iff] at hlower
      omega
    · rw [isDigit_iff] at hdigit
      omega
    · decide
  rw [Text.asciiFold, List.map_congr_left small, List.map_id', String.ofList_toList]

end Lexer

/-! ### Tokens -/

/-- A token holds a plain name, or the value of a numeral. -/
def Token.IsPlain [Scalar F] : Token F → Prop
  | .symbol name | .call name => Lexer.IsPlainName name.toList
  | .number x => ∃ m p, x = Scalar.ofDecimal m p
  | .operator _ | .leftParen | .rightParen | .comma => True

namespace Lexer

variable [Scalar F]

/-- A token of one character is no name and no number. -/
theorem isPlain_of_singleToken? {c : Char} {t : Token F} (h : singleToken? c = some t) :
    t.IsPlain := by
  unfold singleToken? at h
  repeat' split at h
  all_goals cases h
  all_goals trivial

/-- **The tokens that are written are plain.** -/
theorem Writes.plain {cs : List Char} {ts : List (Token F)} (h : Writes cs ts) :
    ∀ t ∈ ts, t.IsPlain := by
  induction h with
  | nil => exact nofun
  | blank _ _ ih => exact ih
  | single hc _ ih => exact List.forall_mem_cons.mpr ⟨isPlain_of_singleToken? hc, ih⟩
  | symbol hw _ _ ih | call hw _ ih =>
    refine List.forall_mem_cons.mpr ⟨?_, ih⟩
    simpa [Token.IsPlain] using hw.isPlainName
  | number _ _ _ ih => exact List.forall_mem_cons.mpr ⟨⟨_, _, rfl⟩, ih⟩

/-! ### What the lexer gets through -/

omit [Scalar F] in
/-- The longest front of a list whose characters have a property. -/
theorem exists_front (p : Char → Bool) (cs : List Char) :
    ∃ w rest, cs = w ++ rest ∧ (∀ c ∈ w, p c = true) ∧ ∀ c ∈ rest.head?, p c = false := by
  refine ⟨cs.takeWhile p, cs.dropWhile p, List.takeWhile_append_dropWhile.symm,
    List.all_eq_true.mp List.all_takeWhile, fun c hc => ?_⟩
  have stops := List.head?_dropWhile_not p cs
  rw [hc] at stops
  exact stops

/-- Nothing is pending behind a completed token. -/
theorem pending_of_complete {s s' : Lexer F} {next : Option Char}
    (h : s.complete next = .ok s') : s'.pending = .none := by
  unfold complete at h
  split at h
  · next hs => exact Except.ok.inj h ▸ hs
  · exact Except.ok.inj h ▸ rfl
  · split at h
    · exact Except.ok.inj h ▸ rfl
    · cases h

/-- What the lexer gets through is completed where it ends. -/
theorem exists_complete {s : Lexer F} {cs : List Char} {r : TokenizedText F}
    (h : (s.run cs >>= finish) = .ok r) (hstops : ∀ c ∈ cs.head?, Stops c s.pending) :
    ∃ s', s.complete cs.head? = .ok s' ∧ s'.pending = .none ∧ (s'.run cs >>= finish) = .ok r := by
  have completed : ∃ s', s.complete cs.head? = .ok s' := by
    cases cs with
    | nil =>
      obtain ⟨s', hs', -⟩ := bind_eq_ok.mp (show s.finish = .ok r from h)
      exact ⟨s', hs'⟩
    | cons c rest =>
      -- the first step completes what is pending, since the character ends it
      have stops := hstops c rfl
      obtain ⟨middle, hmiddle, -⟩ := bind_eq_ok.mp h
      obtain ⟨next, hnext, -⟩ := bind_eq_ok.mp hmiddle
      unfold step at hnext
      split at hnext
      · next pending =>
        exact ⟨s, by rw [complete, pending]⟩
      · next pending =>
        rw [pending] at stops
        rw [stops, if_neg Bool.false_ne_true] at hnext
        obtain ⟨s', hs', -⟩ := bind_eq_ok.mp hnext
        exact ⟨s', hs'⟩
      · next pending =>
        rw [pending] at stops
        rw [stops.1, if_neg Bool.false_ne_true, if_neg stops.2] at hnext
        obtain ⟨s', hs', -⟩ := bind_eq_ok.mp hnext
        exact ⟨s', hs'⟩
  obtain ⟨s', hs'⟩ := completed
  have pending := pending_of_complete hs'
  exact ⟨s', hs', pending, run_finish_of_complete hs' pending hstops ▸ h⟩

/-- A second point is refused. -/
theorem count_point_of_run {p q : Position} {n : Numeral} {tokens : List (PlacedToken F)}
    {cs : List Char} {s' : Lexer F} (hcs : ∀ c ∈ cs, c.isDigit = true ∨ c = '.')
    (h : run ⟨q, .numeral p n, tokens⟩ cs = .ok s') :
    cs.count '.' + (if n.hasPoint then 1 else 0) ≤ 1 := by
  induction cs generalizing q n with
  | nil =>
    rw [List.count_nil]
    split <;> omega
  | cons c rest ih =>
    obtain ⟨hc, hrest⟩ := List.forall_mem_cons.mp hcs
    rw [run_cons, step_numeral hc] at h
    split at h
    · cases h
    · next hfirst =>
      have later := ih hrest h
      rcases hc with hdigit | rfl
      · have other := ne_point_of_isDigit hdigit
        simpa [List.count_cons_of_ne other, Numeral.add, hdigit, Numeral.addDigit] using later
      · have unseen : n.hasPoint = false := by simpa using hfirst
        simpa [Numeral.add, Numeral.addPoint, unseen] using later

/-- A numeral without a digit is refused. -/
theorem hasDigit_of_complete {s s' : Lexer F} {p : Position} {n : Numeral} {next : Option Char}
    (hs : s.pending = .numeral p n) (h : s.complete next = .ok s') : n.hasDigit = true := by
  rw [complete, hs] at h
  dsimp only at h
  split at h
  · assumption
  · cases h

/-- Digits and points that the lexer gets through are a numeral. -/
theorem exists_rest_of_numeral {c : Char} {w tail : List Char} {s : Lexer F} {r : TokenizedText F}
    (hs : s.pending = .none) (hw : ∀ d ∈ c :: w, d.isDigit = true ∨ d = '.')
    (hstops : ∀ d ∈ tail.head?, d.isDigit = false ∧ d ≠ '.')
    (h : (s.run (c :: w ++ tail) >>= finish) = .ok r) :
    IsDecimal (c :: w) ∧ ∃ s' : Lexer F, s'.pending = .none ∧
      (s'.run tail >>= finish) = .ok r := by
  obtain ⟨hc, hrest⟩ := List.forall_mem_cons.mp hw
  rw [run_append, run_cons, step_of_isNumeralStart hs hc, Except.bind] at h
  obtain ⟨_, htail, -⟩ := bind_eq_ok.mp h
  obtain ⟨_, hrun, -⟩ := bind_eq_ok.mp htail
  have points := count_point_of_run hrest hrun
  rw [run_numeral hrest points] at h
  obtain ⟨s', hcomplete, hs', behind⟩ := exists_complete h hstops
  refine ⟨⟨hw, ?_, ?_⟩, s', hs', behind⟩
  · have digit : ((c :: w).foldl Numeral.add .empty).hasDigit = true :=
      hasDigit_of_complete rfl hcomplete
    exact (hasDigit_foldl.mp digit).resolve_left nofun
  · have first : (Numeral.empty.add c).hasPoint = (c == '.') := by
      rcases hc with hdigit | rfl
      · simp [Numeral.add, hdigit, Numeral.addDigit, ne_point_of_isDigit hdigit, Numeral.empty]
      · rfl
    rwa [first, ← List.count_cons] at points

/-- **One token, or a blank.**  From what the lexer gets through it takes a front, and is left with
    nothing in hand; whatever the rest writes, both together write something. -/
theorem exists_front_of_run {c : Char} {rest : List Char} {s : Lexer F} {r : TokenizedText F}
    (hs : s.pending = .none) (h : (s.run (c :: rest) >>= finish) = .ok r) :
    ∃ (w tail : List Char) (s' : Lexer F), rest = w ++ tail ∧ s'.pending = .none ∧
      (s'.run tail >>= finish) = .ok r ∧
      ∀ ts : List (Token F), Writes tail ts → ∃ ts' : List (Token F), Writes (c :: rest) ts' := by
  by_cases hname : isNameStart c = true
  · -- a name, as far as it goes
    obtain ⟨w, tail, rfl, hw, hstops⟩ := exists_front isNameChar rest
    have name : IsName (c :: w) := ⟨hname, hw⟩
    rw [← List.cons_append, run_append, run_of_isName hs name] at h
    obtain ⟨s', -, hs', behind⟩ := exists_complete h hstops
    refine ⟨w, tail, s', rfl, hs', behind, fun ts hts => ?_⟩
    by_cases hcall : ∃ tail', tail = '(' :: tail'
    · obtain ⟨tail, rfl⟩ := hcall
      exact ⟨_, .call name hts⟩
    · refine ⟨_, .symbol name (fun d hd => ⟨hstops d hd, ?_⟩) hts⟩
      rintro rfl
      exact hcall (List.head?_eq_some_iff.mp hd)
  by_cases hnumeral : c.isDigit = true ∨ c = '.'
  · -- a numeral, as far as it goes
    obtain ⟨w, tail, rfl, hw, hstops⟩ := exists_front (fun d => d.isDigit || d == '.') rest
    simp only [Bool.or_eq_true, beq_iff_eq] at hw
    simp only [Bool.or_eq_false_iff, beq_eq_false_iff_ne] at hstops
    obtain ⟨decimal, s', hs', behind⟩ :=
      exists_rest_of_numeral hs (List.forall_mem_cons.mpr ⟨hnumeral, hw⟩) hstops h
    exact ⟨w, tail, s', rfl, hs', behind, fun ts hts => ⟨_, .number decimal hstops hts⟩⟩
  -- a single character, or a blank
  obtain ⟨s', hstep, behind⟩ : ∃ s', s.begin c = .ok s' ∧ (s'.run rest >>= finish) = .ok r := by
    obtain ⟨_, hrun, hfinish⟩ := bind_eq_ok.mp h
    obtain ⟨s', hstep, hrest⟩ := bind_eq_ok.mp hrun
    rw [step, hs] at hstep
    exact ⟨s', hstep, bind_eq_ok.mpr ⟨_, hrest, hfinish⟩⟩
  rw [begin, if_neg hname, if_neg fun hdigit => hnumeral (.inl hdigit),
    if_neg fun hpoint => hnumeral (.inr hpoint)] at hstep
  split at hstep
  · next hblank =>
    cases hstep
    exact ⟨[], rest, s.advance c, rfl, hs, behind, fun ts hts => ⟨_, .blank hblank hts⟩⟩
  split at hstep
  · next t ht =>
    cases hstep
    exact ⟨[], rest, (s.push t s.position).advance c, rfl, hs, behind,
      fun ts hts => ⟨_, .single ht hts⟩⟩
  · cases hstep

/-- **What the lexer gets through is written.** -/
theorem exists_writes {cs : List Char} {s : Lexer F} {r : TokenizedText F}
    (hs : s.pending = .none) (h : (s.run cs >>= finish) = .ok r) :
    ∃ ts : List (Token F), Writes cs ts := by
  -- each token leaves fewer characters
  induction hlength : cs.length using Nat.strongRecOn generalizing cs s with
  | _ length ih =>
  subst hlength
  cases cs with
  | nil => exact ⟨[], .nil⟩
  | cons c rest =>
    obtain ⟨w, tail, s', hsplit, hs', hrest, whole⟩ := exists_front_of_run hs h
    have shorter : tail.length < (c :: rest).length := by
      rw [hsplit, List.length_cons, List.length_append]
      omega
    obtain ⟨ts, hts⟩ := ih tail.length shorter hs' hrest rfl
    exact whole ts hts

/-- **The tokens of a text** are what it is written as. -/
theorem writes_of_tokenize {text : String} {tokenized : TokenizedText F}
    (h : tokenize text = .ok tokenized) :
    Writes text.toList (tokenized.tokens.map (·.token)) := by
  obtain ⟨ts, hts⟩ := exists_writes (s := start) rfl h
  obtain ⟨r, hr, htokens⟩ := hts.tokens start rfl
  obtain rfl : tokenized = r := Except.ok.inj (h.symm.trans hr)
  rw [htokens]
  exact hts

end Lexer

end Drafting
